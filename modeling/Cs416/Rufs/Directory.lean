import Cs416.Rufs.Ownership

/-!
# Directories and path lookup on a volume

The entries of a directory are numbered through its blocks: entry `k` is entry
`k % entsPerBlk` in the block of pointer `k / entsPerBlk`. `Vol.lookup` is the inode number of
the first valid entry with a name, `Vol.resolve` follows a path from the root. The lemmas
connect them to `scanEntries`, `dir_find` and `get_node_by_path`, and bound the blocks these
functions read.

`EventOk N` says what a block access of an operation may be when all data blocks are among the
first `N`, and `Admits N` is the condition under which they stay there: every call of
`get_avail_blkno` finds one of the first `N` bits clear.
-/

open Scan

namespace Rufs

/-! ### Block accesses -/

/-- The accesses that respect the regions of the disk, with the data region cut at `N`. -/
def EventOk (N : ℕ) : Event → Prop
  | .read blk => blk < 67 + N
  | .write .mkfs _ => False
  | .write .getAvailIno blk => blk = 1
  | .write .getAvailBlkno blk => blk = 2
  | .write .writei blk => 3 ≤ blk ∧ blk < 67
  | .write .data blk => 67 ≤ blk ∧ blk < 67 + N
  | .allocBlk _ result => result.isSome = true

/-- All accesses are of that kind. -/
def EventsOk (N : ℕ) (es : List Event) : Prop := ∀ e ∈ es, EventOk N e

/-- Every call of `get_avail_blkno` finds a clear bit among the first `N`. -/
def FindsBelow (N : ℕ) (es : List Event) : Prop :=
  ∀ bitmap result, .allocBlk bitmap result ∈ es → ∃ j < N, ByteMem.bit bitmap j = false

/-- Nothing is asked when `N` is the whole data region. -/
def Admits (N : ℕ) (es : List Event) : Prop := N = maxDnum ∨ N ≤ maxDnum ∧ FindsBelow N es

section Events

variable {N : ℕ} {e : Event} {es es₁ es₂ : List Event}

@[simp] theorem eventsOk_nil : EventsOk N [] := fun _ h => absurd h List.not_mem_nil

@[simp] theorem eventsOk_cons : EventsOk N (e :: es) ↔ EventOk N e ∧ EventsOk N es :=
  List.forall_mem_cons

@[simp] theorem eventsOk_append : EventsOk N (es₁ ++ es₂) ↔ EventsOk N es₁ ∧ EventsOk N es₂ :=
  List.forall_mem_append

theorem Admits.le (h : Admits N es) : N ≤ maxDnum := h.elim (fun h => h.le) And.left

theorem Admits.mono (h : Admits N es) (hs : ∀ e ∈ es₁, e ∈ es) : Admits N es₁ :=
  h.imp id fun h => ⟨h.1, fun bitmap result hm => h.2 bitmap result (hs _ hm)⟩

theorem Admits.left (h : Admits N (es₁ ++ es₂)) : Admits N es₁ :=
  h.mono fun _ he => List.mem_append_left _ he

theorem Admits.right (h : Admits N (es₁ ++ es₂)) : Admits N es₂ :=
  h.mono fun _ he => List.mem_append_right _ he

end Events

/-! ### Lookups on a volume -/

/-- The number of entries of a directory with all its blocks. -/
abbrev numEnts : ℕ := numPtrs * entsPerBlk

namespace Vol

/-- Entry `k` of the directory exists and has property `p`. -/
def slot (v : Vol) (dir : Inode) (p : Block → ℕ → Bool) (k : ℕ) : Bool :=
  dir.directPtr (k / entsPerBlk) != 0 &&
    p (v.data (dir.directPtr (k / entsPerBlk))) (k % entsPerBlk)

/-- The inode number in entry `k`. -/
def slotIno (v : Vol) (dir : Inode) (k : ℕ) : ℕ :=
  entIno (v.data (dir.directPtr (k / entsPerBlk))) (k % entsPerBlk)

/-- The inode number that directory `i` has for a name. -/
def lookup (v : Vol) (i : ℕ) (c : Name) : Option ℕ :=
  if c.length > nameMax then none
  else (firstIdx (v.slot (v.inode i) (entMatches c)) 0 numEnts).map (v.slotIno (v.inode i))

/-- Follow a path from inode `i`. -/
def walk (v : Vol) : ℕ → List Name → Option ℕ
  | i, [] => some i
  | i, c :: cs =>
    if (v.inode i).isDir = false then none
    else
      match v.lookup i c with
      | some j => if v.Valid j then walk v j cs else none
      | none => none

/-- Follow a path from the root. -/
def resolve (v : Vol) (p : List Name) : Option ℕ := v.walk 0 p

/-- The root is a directory. -/
structure Rooted (v : Vol) : Prop where
  valid : v.Valid 0
  isDir : (v.inode 0).isDir = true

section

variable {v v' : Vol} {i j : ℕ} {c : Name} {p q : List Name}

theorem walk_valid (hi : v.Valid i) (h : v.walk i p = some j) : v.Valid j := by
  induction p generalizing i with
  | nil => exact Option.some.inj h ▸ hi
  | cons c cs ih =>
    rw [walk] at h
    split at h
    · exact absurd h (by simp)
    · split at h
      · split at h
        · next hv => exact ih hv h
        · exact absurd h (by simp)
      · exact absurd h (by simp)

theorem resolve_valid (hr : v.Rooted) (h : v.resolve p = some j) : v.Valid j :=
  walk_valid hr.valid h

theorem walk_append : v.walk i (p ++ q) = (v.walk i p).bind fun j => v.walk j q := by
  induction p generalizing i with
  | nil => rfl
  | cons c cs ih =>
    rw [List.cons_append, walk, walk]
    split
    · rfl
    · cases v.lookup i c with
      | none => rfl
      | some j =>
        dsimp only
        split
        · exact ih
        · rfl

theorem walk_singleton : v.walk i [c] =
    if (v.inode i).isDir = false then none
    else (v.lookup i c).bind fun j => if v.Valid j then some j else none := by
  rw [walk]
  cases v.lookup i c <;> rfl

/-- A path resolves to what its parent has for its last component. -/
theorem resolve_concat : v.resolve (p ++ [c]) = (v.resolve p).bind fun i =>
    if (v.inode i).isDir = false then none
    else (v.lookup i c).bind fun j => if v.Valid j then some j else none := by
  rw [resolve, walk_append]
  simp only [walk_singleton]
  rfl

/-- An entry depends on the blocks of the directory only. -/
theorem slot_congr (hp : ∀ k < numPtrs, v'.ptr i k = v.ptr i k)
    (hd : ∀ k < numPtrs, v.ptr i k ≠ 0 → v'.data (v.ptr i k) = v.data (v.ptr i k))
    (f : Block → ℕ → Bool) {k : ℕ} (hk : k < numEnts) :
    v'.slot (v'.inode i) f k = v.slot (v.inode i) f k ∧
      (v.ptr i (k / entsPerBlk) ≠ 0 → v'.slotIno (v'.inode i) k = v.slotIno (v.inode i) k) := by
  have hk' : k / entsPerBlk < numPtrs := Nat.div_lt_of_lt_mul (by rwa [Nat.mul_comm])
  have hptr := hp _ hk'
  have hdata := hd _ hk'
  unfold slot slotIno ptr at *
  rw [hptr]
  by_cases h0 : (v.inode i).directPtr (k / entsPerBlk) = 0
  · rw [h0]
    exact ⟨rfl, fun h => absurd rfl h⟩
  · rw [hdata h0]
    exact ⟨rfl, fun _ => rfl⟩

/-- A lookup depends on the blocks of the directory only. -/
theorem lookup_congr (hp : ∀ k < numPtrs, v'.ptr i k = v.ptr i k)
    (hd : ∀ k < numPtrs, v.ptr i k ≠ 0 → v'.data (v.ptr i k) = v.data (v.ptr i k)) :
    v'.lookup i c = v.lookup i c := by
  have hslot := fun k (hk : k < numEnts) => slot_congr hp hd (entMatches c) hk
  unfold lookup
  rw [firstIdx_congr fun k _ hk => (hslot k (by omega)).1]
  split
  · rfl
  · cases hf : firstIdx (v.slot (v.inode i) (entMatches c)) 0 numEnts with
    | none => rfl
    | some k =>
      obtain ⟨-, hk, hm, -⟩ := firstIdx_eq_some.mp hf
      have h0 : v.ptr i (k / entsPerBlk) ≠ 0 := by
        simp only [slot, Bool.and_eq_true, bne_iff_ne] at hm
        exact hm.1
      rw [Option.map_some, Option.map_some, (hslot k (by omega)).2 h0]

end

end Vol

/-! ### The scans of the program -/

section Scans

variable {N : ℕ} {s : Fs} {dir : Inode} {p : Block → ℕ → Bool} {n i : ℕ}

/-- The nested loops visit the entries in order. -/
theorem scanEntries_eq (hp : ∀ k < numPtrs, dir.directPtr k ≠ 0 → 67 ≤ dir.directPtr k)
    (hn : i + n ≤ numPtrs) :
    (scanEntries s dir p n i).1
      = (firstIdx (s.vol.slot dir p) (i * entsPerBlk) (n * entsPerBlk)).map
          fun k => (dir.directPtr (k / entsPerBlk), k % entsPerBlk) := by
  induction n generalizing i with
  | zero =>
    rw [Nat.zero_mul]
    rfl
  | succ n ih =>
    -- the entries of block `i` come first
    have hdiv : ∀ j < entsPerBlk, (i * entsPerBlk + j) / entsPerBlk = i := fun j hj => by
      rw [Nat.mul_comm, Nat.mul_add_div (by decide), Nat.div_eq_of_lt hj, Nat.add_zero]
    have hmod : ∀ j < entsPerBlk, (i * entsPerBlk + j) % entsPerBlk = j := fun j hj => by
      rw [Nat.mul_comm, Nat.mul_add_mod, Nat.mod_eq_of_lt hj]
    have hblock : firstIdx (s.vol.slot dir p) (i * entsPerBlk) entsPerBlk
        = (firstIdx (fun j => dir.directPtr i != 0 && p (s.vol.data (dir.directPtr i)) j) 0
            entsPerBlk).map (i * entsPerBlk + ·) := by
      rw [← Nat.add_zero (i * entsPerBlk), firstIdx_shift, Nat.add_zero]
      congr 1
      refine firstIdx_congr fun j _ hj => ?_
      rw [Vol.slot, hdiv j (by omega), hmod j (by omega)]
    have hrest := ih (i := i + 1) (by omega)
    rw [Nat.succ_mul, Nat.add_comm (n * entsPerBlk), firstIdx_add, hblock, ← Nat.succ_mul,
      scanEntries]
    by_cases h0 : dir.directPtr i = 0
    · have hnone : firstIdx (fun j => dir.directPtr i != 0 &&
          p (s.vol.data (dir.directPtr i)) j) 0 entsPerBlk = none :=
        firstIdx_eq_none.mpr fun j _ _ => by rw [h0]; rfl
      rw [hnone, Option.map_none, Option.none_or, ← hrest]
      simp only [if_pos h0]
    · have hdata : s.vol.data (dir.directPtr i) = s.disk (dir.directPtr i) :=
        Fs.vol_data (hp i (by omega) h0) s
      have hsome : firstIdx (fun j => dir.directPtr i != 0 &&
          p (s.vol.data (dir.directPtr i)) j) 0 entsPerBlk
            = firstIdx (p (s.disk (dir.directPtr i))) 0 entsPerBlk :=
        firstIdx_congr fun j _ _ => by rw [hdata, bne_iff_ne.mpr h0, Bool.true_and]
      rw [hsome]
      cases hf : firstIdx (p (s.disk (dir.directPtr i))) 0 entsPerBlk with
      | none =>
        rw [Option.map_none, Option.none_or, ← hrest]
        simp only [if_neg h0]
      | some j =>
        have hj : j < entsPerBlk := by
          have := (firstIdx_eq_some.mp hf).2.1
          omega
        rw [Option.map_some, Option.some_or, Option.map_some, hdiv j hj, hmod j hj]
        simp only [if_neg h0]

theorem scanEntries_events (hp : ∀ k < numPtrs, dir.directPtr k ≠ 0 → dir.directPtr k < 67 + N)
    (hn : i + n ≤ numPtrs) : EventsOk N (scanEntries s dir p n i).2 := by
  induction n generalizing i with
  | zero => exact eventsOk_nil
  | succ n ih =>
    have hrest := ih (i := i + 1) (by omega)
    rw [scanEntries]
    dsimp only
    split
    · exact hrest
    · next h0 =>
      have hread : EventOk N (.read (dir.directPtr i)) := hp i (by omega) h0
      split
      · exact eventsOk_cons.mpr ⟨hread, eventsOk_nil⟩
      · exact eventsOk_cons.mpr ⟨hread, hrest⟩

end Scans

/-! ### Lookup functions -/

section Lookup

variable {N : ℕ} {s : Fs} {i : ℕ}

theorem Owned.ptr_lt (h : Owned N s.vol) (hi : s.vol.Valid i) {k : ℕ} (hk : k < numPtrs)
    (hp : s.vol.ptr i k ≠ 0) : s.vol.ptr i k < 67 + N := by
  obtain ⟨j, hlt, hj, -⟩ := h.ptr_used i k hi hk hp
  omega

theorem readi_valid (hm : s.Mounted) (ho : Owned N s.vol) (hi : s.vol.Valid i) :
    readi s i = (some (s.vol.inode i), [.read (inodeBlk i)]) := by
  rw [readi_of_lt hm (ho.ibit_of_valid i hi).1, if_neg hi]

theorem readi_events (hm : s.Mounted) (i : ℕ) : EventsOk N (readi s i).2 := by
  rcases lt_or_ge i maxInum with hi | hi
  · have hblk := inodeBlk_lt hi
    rw [readi_of_lt hm hi]
    exact eventsOk_cons.mpr ⟨Nat.lt_add_right N hblk, eventsOk_nil⟩
  · rw [readi_of_le hm hi]
    exact eventsOk_nil

/-- `dir_find` is the lookup. -/
theorem dirFind_eq (hm : s.Mounted) (ho : Owned N s.vol) (hi : s.vol.Valid i) (c : Name) :
    (dirFind s i c).1 = s.vol.lookup i c := by
  unfold dirFind Vol.lookup
  split
  · rfl
  rw [readi_valid hm ho hi]
  dsimp only
  rw [scanEntries_eq (fun k hk hp => ho.ptr_ge hi hk hp) le_rfl, Nat.zero_mul]
  cases hf : firstIdx (s.vol.slot (s.vol.inode i) (entMatches c)) 0 numEnts with
  | none => rfl
  | some k =>
    obtain ⟨-, hk, hmatch, -⟩ := firstIdx_eq_some.mp hf
    have hk' : k / entsPerBlk < numPtrs := Nat.div_lt_of_lt_mul (by rw [Nat.mul_comm]; omega)
    have h0 : s.vol.ptr i (k / entsPerBlk) ≠ 0 := by
      simp only [Vol.slot, Bool.and_eq_true, bne_iff_ne] at hmatch
      exact hmatch.1
    rw [Option.map_some, Option.map_some, Option.map_some, Vol.slotIno,
      Fs.vol_data (ho.ptr_ge hi hk' h0)]

theorem dirFind_events (hm : s.Mounted) (ho : Owned N s.vol) (hi : s.vol.Valid i) (c : Name) :
    EventsOk N (dirFind s i c).2 := by
  have hread := readi_events (N := N) hm i
  unfold dirFind
  split
  · exact eventsOk_nil
  rw [readi_valid hm ho hi] at hread ⊢
  refine eventsOk_append.mpr ⟨hread, ?_⟩
  exact scanEntries_events (fun k hk hp => ho.ptr_lt hi hk hp) le_rfl

/-- The token loop follows the path on the volume. -/
theorem walk_spec (hm : s.Mounted) (ho : Owned N s.vol) (hi : s.vol.Valid i) (p : List Name) :
    (walk s (s.vol.inode i) p).1 = (s.vol.walk i p).map s.vol.inode ∧
      EventsOk N (walk s (s.vol.inode i) p).2 := by
  -- on the tokens; each is looked up in the directory the walk has reached
  induction p generalizing i with
  | nil => exact ⟨rfl, eventsOk_nil⟩
  | cons c cs ih =>
    have hfind := dirFind_eq hm ho hi c
    have hev := dirFind_events hm ho hi c
    unfold walk Vol.walk
    rw [ho.ino_self i hi]
    split
    · exact ⟨rfl, eventsOk_nil⟩
    -- the token is not found
    · rcases hd : dirFind s i c with ⟨_ | j, e⟩
      · rw [hd] at hfind hev
        rw [← hfind]
        exact ⟨rfl, hev⟩
      · rw [hd] at hfind hev
        rw [← hfind]
        have hread := readi_eq hm j
        have hev' := readi_events (N := N) hm j
        rcases hr : readi s j with ⟨_ | cur, e'⟩
        -- an entry that points at an invalid inode stops the walk
        · rw [hr] at hread hev'
          have hv : ¬ s.vol.Valid j := fun hv => by simp [hv] at hread
          simp only [if_neg hv, hr, Option.map_none, true_and]
          exact eventsOk_append.mpr ⟨hev, hev'⟩
        · rw [hr] at hread hev'
          have hv : s.vol.Valid j := fun hv => by simp [hv] at hread
          obtain rfl : cur = s.vol.inode j := by simpa [hv] using hread
          have hrec := ih hv
          simp only [if_pos hv, hr]
          exact ⟨hrec.1, eventsOk_append.mpr ⟨eventsOk_append.mpr ⟨hev, hev'⟩, hrec.2⟩⟩

theorem tokens_root : tokens [slash] = [] := rfl

/-- **`get_node_by_path` resolves the path on the volume.** -/
theorem getNodeByPath_spec (hm : s.Mounted) (ho : Owned N s.vol) (hr : s.vol.Rooted)
    {path : List UInt8} (hl : path.length < pathMax) :
    (getNodeByPath s path 0).1 = (s.vol.resolve (tokens path)).map s.vol.inode ∧
      EventsOk N (getNodeByPath s path 0).2 := by
  have hread := readi_events (N := N) hm 0
  have hwalk := walk_spec hm ho hr.valid (tokens path)
  unfold getNodeByPath
  rw [readi_valid hm ho hr.valid] at hread ⊢
  dsimp only
  rw [List.take_of_length_le (by unfold pathMax at *; omega)]
  split
  · next hroot =>
    rw [hroot, tokens_root]
    exact ⟨rfl, hread⟩
  · exact ⟨hwalk.1, eventsOk_append.mpr ⟨hread, hwalk.2⟩⟩

end Lookup

end Rufs
