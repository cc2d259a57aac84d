import Cs416.Vm.Header

/-!
# Address spaces

What the page tables and the two bitmaps mean, without bytes: which table each directory
entry points to, which frame each virtual page is mapped to, which frames are marked used
and which virtual pages are marked taken. The operations below are the abstract
counterparts of `allocate_phys_page`, `map_page` and the loop body of `n_free`.

`Space.WF` is the frame isolation invariant. A frame is referenced at most once, by the
directory or by a page, and every referenced frame is marked used. The converse, that every
frame marked used is referenced, is not part of it: a data frame is allocated before the
page is mapped.
-/

open Scan

namespace MyVm

/-- An address space. Tables and frames are named by their address, `0` meaning none. -/
@[ext] structure Space where
  /-- The page table of directory entry `i`. -/
  dir : ℕ → ℕ
  /-- The frame of virtual page `v`. -/
  page : ℕ → ℕ
  /-- The frame with number `f` is marked in `phys_bitmap`. -/
  used : ℕ → Bool
  /-- The virtual page `v` is marked in `virt_bitmap`. -/
  taken : ℕ → Bool

/-- `a` is the address of a physical page. -/
def IsFrame (a : ℕ) : Prop := a % pgSize = 0 ∧ a < memSize

theorem IsFrame.disjoint {a b : ℕ} (ha : IsFrame a) (hb : IsFrame b) (h : a ≠ b) :
    a + 4096 ≤ b ∨ b + 4096 ≤ a := by
  obtain ⟨h1, -⟩ := ha
  obtain ⟨h2, -⟩ := hb
  simp only [pgSize] at h1 h2
  omega

theorem IsFrame.ofNumber {f : ℕ} (h : f < numPhysPages) : IsFrame (f * 4096) := by
  simp only [IsFrame, numPhysPages, memSize, pgSize] at *
  omega

/-- Distinct frames have distinct numbers. -/
theorem IsFrame.number_inj {a b : ℕ} (ha : IsFrame a) (hb : IsFrame b)
    (h : a / 4096 = b / 4096) : a = b := by
  obtain ⟨h1, -⟩ := ha
  obtain ⟨h2, -⟩ := hb
  simp only [pgSize] at h1 h2
  omega

theorem IsFrame.number_lt {a : ℕ} (ha : IsFrame a) : a / 4096 < numPhysPages := by
  obtain ⟨h1, h2⟩ := ha
  simp only [pgSize, memSize, numPhysPages] at *
  omega

namespace Space

/-! ### Operations -/

/-- Mark and return the first frame that is not used. -/
def alloc (s : Space) : Option (ℕ × Space) :=
  match firstIdx (fun f => !s.used f) 0 numPhysPages with
  | some f => some (f * 4096, { s with used := Function.update s.used f true })
  | none => none

/-- Point page `v` at the frame `pa`. -/
def install (s : Space) (v pa : ℕ) : Space :=
  { s with page := Function.update s.page v pa
           used := Function.update s.used (pa / 4096) true
           taken := Function.update s.taken v true }

/-- Point directory entry `i` at the table `t`. -/
def addTable (s : Space) (i t : ℕ) : Space := { s with dir := Function.update s.dir i t }

/-- Map page `v` to `pa`, with a new table if page `v` has none. -/
def mapPage (s : Space) (v pa : ℕ) : Option Space :=
  if s.dir (v / 1024) = 0 then
    match s.alloc with
    | none => none
    | some (t, s) => some ((s.addTable (v / 1024) t).install v pa)
  else some (s.install v pa)

/-- Unmap page `v` and release its frame. -/
def clearPage (s : Space) (v : ℕ) : Space :=
  { s with page := Function.update s.page v 0
           used := Function.update s.used (s.page v / 4096) false
           taken := Function.update s.taken v false }

/-- No page of table `i` is mapped. -/
def tableEmpty (s : Space) (i : ℕ) : Bool :=
  (firstIdx (fun j => s.page (1024 * i + j) != 0) 0 1024).isNone

/-- Remove table `i` and release its frame. -/
def dropTable (s : Space) (i : ℕ) : Space :=
  { s with dir := Function.update s.dir i 0
           used := Function.update s.used (s.dir i / 4096) false }

/-- Free page `v`, with its table if that was its last page. -/
def freePage (s : Space) (v : ℕ) : Space :=
  if s.page v = 0 then s
  else if (s.clearPage v).tableEmpty (v / 1024) then (s.clearPage v).dropTable (v / 1024)
  else s.clearPage v

/-- Free `n` pages from page `v` on, page numbers taken modulo `2 ^ 20`. -/
def freePages (s : Space) (v : ℕ) : ℕ → Space
  | 0 => s
  | n + 1 => (freePages s v n).freePage ((v + n) % numVirtPages)

/-- Reserve the `n` pages from page `v` on. -/
def take (s : Space) (v n : ℕ) : Space :=
  { s with taken := fun w => decide (v ≤ w ∧ w < v + n) || s.taken w }

/-! ### The frame isolation invariant -/

/-- Frame isolation: every referenced frame is marked used and is referenced once. -/
structure Isolated (s : Space) : Prop where
  /-- The directory itself occupies frame `0`. -/
  frame_zero : s.used 0 = true
  dir_frame : ∀ i, s.dir i ≠ 0 → IsFrame (s.dir i) ∧ s.used (s.dir i / 4096) = true
  page_frame : ∀ v, s.page v ≠ 0 → IsFrame (s.page v) ∧ s.used (s.page v / 4096) = true
  dir_inj : ∀ i j, s.dir i ≠ 0 → s.dir i = s.dir j → i = j
  page_inj : ∀ v w, s.page v ≠ 0 → s.page v = s.page w → v = w
  dir_ne_page : ∀ i v, s.dir i ≠ 0 → s.dir i ≠ s.page v
  /-- A mapped page has a table and is marked taken. -/
  page_dir : ∀ v, s.page v ≠ 0 → s.dir (v / 1024) ≠ 0
  page_taken : ∀ v, s.page v ≠ 0 → s.taken v = true
  page_zero : s.page 0 = 0
  dir_lt : ∀ i, s.dir i ≠ 0 → i < 1024

/-- Frame isolation, and no table is empty. The second clause is broken only inside
`map_page` and `n_free`. -/
structure WF (s : Space) : Prop extends Isolated s where
  dir_nonempty : ∀ i, s.dir i ≠ 0 → ∃ v, v / 1024 = i ∧ s.page v ≠ 0

/-- A frame that nothing references. -/
structure Unref (s : Space) (pa : ℕ) : Prop where
  frame : IsFrame pa
  pos : pa ≠ 0
  dir : ∀ i, s.dir i ≠ pa
  page : ∀ v, s.page v ≠ pa

variable {s s' : Space} {v pa t : ℕ}

theorem Isolated.page_lt (h : s.Isolated) (hv : s.page v ≠ 0) : v < numVirtPages := by
  have := h.dir_lt _ (h.page_dir v hv)
  simp only [numVirtPages, maxMemSize, pgSize]
  omega

theorem tableEmpty_iff {i : ℕ} :
    s.tableEmpty i = true ↔ ∀ w, w / 1024 = i → s.page w = 0 := by
  unfold tableEmpty
  rw [Option.isNone_iff_eq_none, firstIdx_eq_none]
  constructor
  · intro h w hw
    have := h (w % 1024) (by omega) (by omega)
    rw [show 1024 * i + w % 1024 = w by omega] at this
    simpa using this
  · intro h j _ hj
    simpa using h (1024 * i + j) (by omega)

/-! ### Allocation -/

/-- What a successful allocation returns. -/
theorem alloc_eq_some (ha : s.alloc = some (pa, s')) :
    ∃ f < numPhysPages, pa = f * 4096 ∧ s.used f = false ∧
      (∀ g < f, s.used g = true) ∧ s' = { s with used := Function.update s.used f true } := by
  unfold alloc at ha
  cases hf : firstIdx (fun f => !s.used f) 0 numPhysPages with
  | none => rw [hf] at ha; exact absurd ha (by simp)
  | some f =>
    rw [hf] at ha
    simp only [Option.some.injEq, Prod.mk.injEq] at ha
    obtain ⟨-, hu, hp, hmin⟩ := firstIdx_eq_some.mp hf
    refine ⟨f, by omega, ha.1.symm, by simpa using hp, fun g hg => ?_, ha.2.symm⟩
    simpa using hmin g (by omega) hg

theorem alloc_eq_none : s.alloc = none ↔ ∀ f < numPhysPages, s.used f = true := by
  unfold alloc
  cases hf : firstIdx (fun f => !s.used f) 0 numPhysPages with
  | none =>
    simp only [true_iff]
    intro f hlt
    simpa using firstIdx_eq_none.mp hf f (by omega) (by omega)
  | some f =>
    obtain ⟨-, hu, hp, -⟩ := firstIdx_eq_some.mp hf
    simp only [reduceCtorEq, false_iff, not_forall]
    exact ⟨f, by omega, by simpa using hp⟩

/-- Marking one more frame keeps the frames isolated. -/
theorem Isolated.mark (h : s.Isolated) (f : ℕ) :
    Isolated { s with used := Function.update s.used f true } := by
  have hmono : ∀ g, s.used g = true → Function.update s.used f true g = true := by
    intro g hg
    by_cases hgf : g = f
    · subst hgf; rw [Function.update_self]
    · rw [Function.update_of_ne hgf]; exact hg
  exact { h with
    frame_zero := hmono 0 h.frame_zero
    dir_frame := fun i hi => ⟨(h.dir_frame i hi).1, hmono _ (h.dir_frame i hi).2⟩
    page_frame := fun v hv => ⟨(h.page_frame v hv).1, hmono _ (h.page_frame v hv).2⟩ }

theorem Isolated.alloc (h : s.Isolated) (ha : s.alloc = some (pa, s')) : s'.Isolated := by
  obtain ⟨f, -, -, -, -, rfl⟩ := alloc_eq_some ha
  exact h.mark f

theorem WF.alloc (h : s.WF) (ha : s.alloc = some (pa, s')) : s'.WF := by
  have hi := h.toIsolated.alloc ha
  obtain ⟨f, -, -, -, -, rfl⟩ := alloc_eq_some ha
  exact ⟨hi, h.dir_nonempty⟩

/-- An unused frame is unreferenced. -/
theorem Isolated.unref_of_unused (h : s.Isolated) {f : ℕ} (hf : f < numPhysPages)
    (hu : s.used f = false) : s.Unref (f * 4096) := by
  have hpos : f * 4096 ≠ 0 := by
    intro h0
    obtain rfl : f = 0 := by omega
    rw [h.frame_zero] at hu
    exact absurd hu (by decide)
  have hused : ∀ a, a = f * 4096 → s.used (a / 4096) = true → False := by
    intro a ha hu'
    rw [ha, Nat.mul_div_cancel _ (by decide), hu] at hu'
    exact absurd hu' (by decide)
  exact
    { frame := IsFrame.ofNumber hf
      pos := hpos
      dir := fun i hi => hused _ hi (h.dir_frame i (by rw [hi]; exact hpos)).2
      page := fun v hv => hused _ hv (h.page_frame v (by rw [hv]; exact hpos)).2 }

theorem Isolated.alloc_unref (h : s.Isolated) (ha : s.alloc = some (pa, s')) :
    s.Unref pa ∧ s'.Unref pa ∧ s'.used (pa / 4096) = true ∧ s.used (pa / 4096) = false := by
  obtain ⟨f, hf, rfl, hu, -, rfl⟩ := alloc_eq_some ha
  have hr := h.unref_of_unused hf hu
  rw [Nat.mul_div_cancel _ (by decide)]
  exact ⟨hr, ⟨hr.frame, hr.pos, hr.dir, hr.page⟩, by simp, hu⟩

/-! ### Mapping a page -/

theorem Unref.number_ne_zero (hr : s.Unref pa) : pa / 4096 ≠ 0 := by
  obtain ⟨h1, -⟩ := hr.frame
  have h2 := hr.pos
  simp only [pgSize] at h1
  omega

/-- Installing an unreferenced frame at an unmapped page whose table exists. -/
theorem Isolated.install (h : s.Isolated) (hr : s.Unref pa) (hd : s.dir (v / 1024) ≠ 0)
    (hv : v ≠ 0) : (s.install v pa).Isolated where
  frame_zero := (h.mark (pa / 4096)).frame_zero
  dir_frame := (h.mark (pa / 4096)).dir_frame
  page_frame := by
    intro w hw
    simp only [Space.install] at hw ⊢
    -- the new page has the frame that `mark` marks, the others keep theirs
    by_cases hwv : w = v
    · subst hwv
      rw [Function.update_self]
      exact ⟨hr.frame, by rw [Function.update_self]⟩
    · rw [Function.update_of_ne hwv] at hw ⊢
      exact (h.mark (pa / 4096)).page_frame w hw
  dir_inj := h.dir_inj
  page_inj := by
    intro w x hw heq
    simp only [Space.install] at hw heq
    -- nobody referenced `pa` before, so the new page shares it with none
    by_cases hwv : w = v
    · by_cases hxv : x = v
      · rw [hwv, hxv]
      · rw [hwv, Function.update_self, Function.update_of_ne hxv] at heq
        exact absurd heq.symm (hr.page x)
    · rw [Function.update_of_ne hwv] at hw heq
      by_cases hxv : x = v
      · rw [hxv, Function.update_self] at heq
        exact absurd heq (hr.page w)
      · rw [Function.update_of_ne hxv] at heq
        exact h.page_inj w x hw heq
  dir_ne_page := by
    intro i w hi
    simp only [Space.install] at hi ⊢
    by_cases hwv : w = v
    · rw [hwv, Function.update_self]; exact hr.dir i
    · rw [Function.update_of_ne hwv]; exact h.dir_ne_page i w hi
  page_dir := by
    intro w hw
    simp only [Space.install] at hw ⊢
    by_cases hwv : w = v
    · rw [hwv]; exact hd
    · rw [Function.update_of_ne hwv] at hw; exact h.page_dir w hw
  page_taken := by
    intro w hw
    simp only [Space.install] at hw ⊢
    by_cases hwv : w = v
    · rw [hwv, Function.update_self]
    · rw [Function.update_of_ne hwv] at hw ⊢; exact h.page_taken w hw
  page_zero := by
    simp only [Space.install]
    rw [Function.update_of_ne (Ne.symm hv)]
    exact h.page_zero
  dir_lt := h.dir_lt

/-- Pointing a free directory entry at an unreferenced used frame. -/
theorem Isolated.addTable (h : s.Isolated) {i : ℕ} (hr : s.Unref t)
    (hu : s.used (t / 4096) = true) (h0 : s.dir i = 0) (hi : i < 1024) :
    (s.addTable i t).Isolated where
  frame_zero := h.frame_zero
  dir_frame := by
    intro j hj
    simp only [Space.addTable] at hj ⊢
    by_cases hji : j = i
    · subst hji; rw [Function.update_self]; exact ⟨hr.frame, hu⟩
    · rw [Function.update_of_ne hji] at hj ⊢; exact h.dir_frame j hj
  page_frame := h.page_frame
  dir_inj := by
    intro j k hj heq
    simp only [Space.addTable] at hj heq
    -- the new entry points at a frame that no entry pointed at
    by_cases hji : j = i
    · by_cases hki : k = i
      · rw [hji, hki]
      · rw [hji, Function.update_self, Function.update_of_ne hki] at heq
        exact absurd heq.symm (hr.dir k)
    · rw [Function.update_of_ne hji] at hj heq
      by_cases hki : k = i
      · rw [hki, Function.update_self] at heq
        exact absurd heq (hr.dir j)
      · rw [Function.update_of_ne hki] at heq
        exact h.dir_inj j k hj heq
  page_inj := h.page_inj
  dir_ne_page := by
    intro j w hj
    simp only [Space.addTable] at hj ⊢
    by_cases hji : j = i
    · rw [hji, Function.update_self]; exact (hr.page w).symm
    · rw [Function.update_of_ne hji] at hj ⊢; exact h.dir_ne_page j w hj
  page_dir := by
    intro w hw
    simp only [Space.addTable] at hw ⊢
    -- a page of table `i` has a table now, even if it had none
    by_cases hwi : w / 1024 = i
    · rw [hwi, Function.update_self]; exact hr.pos
    · rw [Function.update_of_ne hwi]; exact h.page_dir w hw
  page_taken := h.page_taken
  page_zero := h.page_zero
  dir_lt := by
    intro j hj
    simp only [Space.addTable] at hj
    by_cases hji : j = i
    · rw [hji]; exact hi
    · rw [Function.update_of_ne hji] at hj; exact h.dir_lt j hj

/-- The two outcomes of `map_page` that succeed, and the one that fails. -/
theorem mapPage_cases (s : Space) (v pa : ℕ) :
    (s.dir (v / 1024) ≠ 0 ∧ s.mapPage v pa = some (s.install v pa)) ∨
    (s.dir (v / 1024) = 0 ∧ s.alloc = none ∧ s.mapPage v pa = none) ∨
    (s.dir (v / 1024) = 0 ∧ ∃ t s₁, s.alloc = some (t, s₁) ∧
      s.mapPage v pa = some ((s₁.addTable (v / 1024) t).install v pa)) := by
  unfold mapPage
  by_cases hd : s.dir (v / 1024) = 0
  · rw [if_pos hd]
    cases ha : s.alloc with
    | none => exact Or.inr (Or.inl ⟨hd, rfl, rfl⟩)
    | some r => exact Or.inr (Or.inr ⟨hd, r.1, r.2, rfl, rfl⟩)
  · rw [if_neg hd]
    exact Or.inl ⟨hd, rfl⟩

theorem mapPage_page (hm : s.mapPage v pa = some s') :
    s'.page = Function.update s.page v pa := by
  obtain ⟨-, he⟩ | ⟨-, -, he⟩ | ⟨-, t, s₁, ha, he⟩ := mapPage_cases s v pa
  · rw [← Option.some.inj (he.symm.trans hm)]
    rfl
  · rw [he] at hm
    exact absurd hm (by simp)
  · rw [← Option.some.inj (he.symm.trans hm)]
    obtain ⟨f, -, -, -, -, rfl⟩ := alloc_eq_some ha
    rfl

/-- A reserved frame stays unreferenced while another one is allocated as a table. -/
theorem Isolated.unref_addTable (h : s.Isolated) {s₁ : Space} {i : ℕ} (hr : s.Unref pa)
    (hu : s.used (pa / 4096) = true) (ha : s.alloc = some (t, s₁)) :
    (s₁.addTable i t).Unref pa := by
  obtain ⟨-, hrt, -, hut⟩ := h.alloc_unref ha
  obtain ⟨f, -, -, -, -, rfl⟩ := alloc_eq_some ha
  refine ⟨hr.frame, hr.pos, fun j hj => ?_, hr.page⟩
  simp only [Space.addTable] at hj
  by_cases hji : j = i
  · rw [hji, Function.update_self] at hj
    rw [hj, hu] at hut
    exact absurd hut (by decide)
  · rw [Function.update_of_ne hji] at hj
    exact hr.dir j hj

/-- `map_page` of a reserved frame at an unmapped page. -/
theorem WF.mapPage (h : s.WF) (hr : s.Unref pa) (hu : s.used (pa / 4096) = true)
    (h0 : s.page v = 0) (hv : v ≠ 0) (hlt : v < numVirtPages)
    (hm : s.mapPage v pa = some s') : s'.WF := by
  have hi : v / 1024 < 1024 := by
    simp only [numVirtPages, maxMemSize, pgSize] at hlt
    omega
  -- the page just installed keeps its own table nonempty, and no other page went away
  have hkeep : ∀ (s₂ : Space) (w : ℕ), s₂.page = s.page → s.page w ≠ 0 →
      (s₂.install v pa).page w ≠ 0 := by
    intro s₂ w hp hw
    simp only [Space.install, hp]
    by_cases hwv : w = v
    · rw [hwv] at hw; exact absurd h0 hw
    · rw [Function.update_of_ne hwv]; exact hw
  obtain ⟨hd, he⟩ | ⟨-, -, he⟩ | ⟨hd, t, s₁, ha, he⟩ := mapPage_cases s v pa
  · obtain rfl := Option.some.inj (he.symm.trans hm)
    refine ⟨h.toIsolated.install hr hd hv, fun i hi => ?_⟩
    obtain ⟨w, hwi, hw⟩ := h.dir_nonempty i hi
    exact ⟨w, hwi, hkeep s w rfl hw⟩
  · rw [he] at hm; exact absurd hm (by simp)
  · obtain rfl := Option.some.inj (he.symm.trans hm)
    obtain ⟨-, hrt, hut, -⟩ := h.alloc_unref ha
    have hra := h.unref_addTable (i := v / 1024) hr hu ha
    have hiso := h.toIsolated.alloc ha
    obtain ⟨f, -, -, -, -, rfl⟩ := alloc_eq_some ha
    have hdt : (Space.addTable { s with used := Function.update s.used f true } (v / 1024) t).dir
        (v / 1024) ≠ 0 := by
      simp only [Space.addTable, Function.update_self]
      exact hrt.pos
    refine ⟨(hiso.addTable hrt hut hd hi).install hra hdt hv, fun i hi => ?_⟩
    by_cases hiv : i = v / 1024
    · refine ⟨v, hiv.symm, ?_⟩
      simp only [Space.install, Function.update_self]
      exact hr.pos
    · simp only [Space.install, Space.addTable, Function.update_of_ne hiv] at hi
      obtain ⟨w, hwi, hw⟩ := h.dir_nonempty i hi
      exact ⟨w, hwi, hkeep _ w rfl hw⟩

/-! ### Freeing a page -/

/-- Releasing the mark of a frame that nothing references any more. -/
theorem Isolated.unmark (h : s.Isolated) {f : ℕ} (hf : f ≠ 0)
    (hd : ∀ i, s.dir i ≠ 0 → s.dir i / 4096 ≠ f) (hp : ∀ v, s.page v ≠ 0 → s.page v / 4096 ≠ f) :
    Isolated { s with used := Function.update s.used f false } :=
  { h with
    frame_zero := by
      dsimp only
      rw [Function.update_of_ne (Ne.symm hf)]
      exact h.frame_zero
    dir_frame := fun i hi => ⟨(h.dir_frame i hi).1, by
      dsimp only
      rw [Function.update_of_ne (hd i hi)]
      exact (h.dir_frame i hi).2⟩
    page_frame := fun v hv => ⟨(h.page_frame v hv).1, by
      dsimp only
      rw [Function.update_of_ne (hp v hv)]
      exact (h.page_frame v hv).2⟩ }

/-- Zeroing the entry of one page. -/
theorem Isolated.zeroPage (h : s.Isolated) (v : ℕ) :
    Isolated { s with page := Function.update s.page v 0
                      taken := Function.update s.taken v false } := by
  -- a page that is mapped behind it is another page, and was mapped to the same frame
  have hpage : ∀ w, Function.update s.page v 0 w ≠ 0 →
      w ≠ v ∧ Function.update s.page v 0 w = s.page w := by
    intro w hw
    by_cases hwv : w = v
    · rw [hwv, Function.update_self] at hw; exact absurd rfl hw
    · exact ⟨hwv, Function.update_of_ne hwv _ _⟩
  refine
    { frame_zero := h.frame_zero
      dir_frame := h.dir_frame
      page_frame := fun w hw => ?_
      dir_inj := h.dir_inj
      page_inj := fun w x hw heq => ?_
      dir_ne_page := fun i w hi => ?_
      page_dir := fun w hw => ?_
      page_taken := fun w hw => ?_
      page_zero := ?_
      dir_lt := h.dir_lt }
  · obtain ⟨-, he⟩ := hpage w hw
    dsimp only at hw ⊢
    rw [he] at hw ⊢
    exact h.page_frame w hw
  · obtain ⟨-, he⟩ := hpage w hw
    dsimp only at hw heq
    obtain ⟨-, he'⟩ := hpage x (by rw [← heq]; exact hw)
    rw [he, he'] at heq
    exact h.page_inj w x (by rw [← he]; exact hw) heq
  · dsimp only at hi ⊢
    -- a set entry is not the `0` of the zeroed page
    by_cases hw : Function.update s.page v 0 w = 0
    · rw [hw]; exact hi
    · rw [(hpage w hw).2]; exact h.dir_ne_page i w hi
  · obtain ⟨-, he⟩ := hpage w hw
    exact h.page_dir w (by rw [← he]; exact hw)
  · obtain ⟨hwv, he⟩ := hpage w hw
    dsimp only
    rw [Function.update_of_ne hwv]
    exact h.page_taken w (by rw [← he]; exact hw)
  · by_contra h0
    exact h0 ((hpage 0 h0).2.trans h.page_zero)

theorem Isolated.clearPage (h : s.Isolated) (hv : s.page v ≠ 0) :
    (s.clearPage v).Isolated := by
  obtain ⟨hfr, -⟩ := h.page_frame v hv
  refine (h.zeroPage v).unmark (f := s.page v / 4096) ?_ (fun i hi hc => ?_) (fun w hw hc => ?_)
  · obtain ⟨h1, -⟩ := hfr
    simp only [pgSize] at h1
    omega
  · exact h.dir_ne_page i v hi (IsFrame.number_inj (h.dir_frame i hi).1 hfr hc)
  · dsimp only at hw hc
    by_cases hwv : w = v
    · rw [hwv, Function.update_self] at hw; exact absurd rfl hw
    · rw [Function.update_of_ne hwv] at hw hc
      exact hwv (h.page_inj w v hw (IsFrame.number_inj (h.page_frame w hw).1 hfr hc))

/-- An empty table can be taken out of the directory. -/
theorem Isolated.dropDir (h : s.Isolated) {i : ℕ} (he : s.tableEmpty i = true) :
    Isolated { s with dir := Function.update s.dir i 0 } := by
  -- an entry that is still set was set before
  have hdir : ∀ j, Function.update s.dir i 0 j ≠ 0 →
      Function.update s.dir i 0 j = s.dir j := by
    intro j hj
    by_cases hji : j = i
    · rw [hji, Function.update_self] at hj; exact absurd rfl hj
    · exact Function.update_of_ne hji _ _
  refine { h with
    dir_frame := fun j hj => ?_
    dir_inj := fun j k hj heq => ?_
    dir_ne_page := fun j w hj => ?_
    page_dir := fun w hw => ?_
    dir_lt := fun j hj => ?_ }
  · have hje := hdir j hj
    dsimp only at hj ⊢
    rw [hje] at hj ⊢
    exact h.dir_frame j hj
  · have hje := hdir j hj
    dsimp only at hj heq
    have hke := hdir k (by rw [← heq]; exact hj)
    rw [hje, hke] at heq
    exact h.dir_inj j k (by rw [← hje]; exact hj) heq
  · have hje := hdir j hj
    dsimp only at hj ⊢
    rw [hje] at hj ⊢
    exact h.dir_ne_page j w hj
  · dsimp only
    rw [Function.update_of_ne]
    · exact h.page_dir w hw
    -- no page of the dropped table is mapped, since it is empty
    · exact fun hwi => hw (tableEmpty_iff.mp he w hwi)
  · have hje := hdir j hj
    dsimp only at hj
    rw [hje] at hj
    exact h.dir_lt j hj

/-- An empty table can be removed. -/
theorem Isolated.dropTable (h : s.Isolated) {i : ℕ} (hd : s.dir i ≠ 0)
    (he : s.tableEmpty i = true) : (s.dropTable i).Isolated := by
  obtain ⟨hfr, -⟩ := h.dir_frame i hd
  refine (h.dropDir he).unmark (f := s.dir i / 4096) ?_ (fun j hj hc => ?_) (fun w hw hc => ?_)
  · obtain ⟨h1, -⟩ := hfr
    simp only [pgSize] at h1
    omega
  · dsimp only at hj hc
    by_cases hji : j = i
    · rw [hji, Function.update_self] at hj; exact absurd rfl hj
    · rw [Function.update_of_ne hji] at hj hc
      exact hji (h.dir_inj j i hj (IsFrame.number_inj (h.dir_frame j hj).1 hfr hc))
  · exact h.dir_ne_page i w hd
      (IsFrame.number_inj hfr (h.page_frame w hw).1 hc.symm)

@[simp] theorem freePage_page (s : Space) (v : ℕ) :
    (s.freePage v).page = Function.update s.page v 0 := by
  unfold freePage
  by_cases hv : s.page v = 0
  · rw [if_pos hv, ← hv, Function.update_eq_self]
  · rw [if_neg hv]
    split <;> rfl

/-- Freeing a page keeps the space well-formed: the only table that can become empty is
removed on the spot. -/
theorem WF.freePage (h : s.WF) (v : ℕ) : (s.freePage v).WF := by
  unfold Space.freePage
  by_cases hv : s.page v = 0
  · rw [if_pos hv]; exact h
  rw [if_neg hv]
  have hiso := h.toIsolated.clearPage hv
  -- a table other than `v`'s keeps the page that makes it nonempty
  have hother : ∀ i, i ≠ v / 1024 → s.dir i ≠ 0 →
      ∃ w, w / 1024 = i ∧ (s.clearPage v).page w ≠ 0 := by
    intro i hiv hi
    obtain ⟨w, hwi, hw⟩ := h.dir_nonempty i hi
    refine ⟨w, hwi, ?_⟩
    simp only [Space.clearPage]
    rw [Function.update_of_ne]
    · exact hw
    · rintro rfl; exact hiv hwi.symm
  split
  · next he =>
    refine ⟨hiso.dropTable (h.page_dir v hv) he, fun i hi => ?_⟩
    simp only [Space.dropTable, Space.clearPage] at hi
    by_cases hiv : i = v / 1024
    · rw [hiv, Function.update_self] at hi; exact absurd rfl hi
    · rw [Function.update_of_ne hiv] at hi
      exact hother i hiv hi
  · next he =>
    refine ⟨hiso, fun i hi => ?_⟩
    by_cases hiv : i = v / 1024
    · rw [hiv]
      by_contra hc
      push Not at hc
      exact he (tableEmpty_iff.mpr hc)
    · exact hother i hiv hi

theorem WF.freePages (h : s.WF) (v n : ℕ) : (s.freePages v n).WF := by
  induction n with
  | zero => exact h
  | succ n ih => exact ih.freePage _

/-- Marking pages taken keeps the space well-formed. -/
theorem WF.take (h : s.WF) (v n : ℕ) : (s.take v n).WF :=
  ⟨{ h.toIsolated with
      page_taken := fun w hw => by
        simp only [Space.take, h.page_taken w hw, Bool.or_true] }, h.dir_nonempty⟩

end Space

end MyVm
