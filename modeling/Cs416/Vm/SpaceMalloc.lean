import Cs416.Vm.Space

/-!
# Allocation on an address space

`Space.malloc` is `n_malloc` on an address space: a first-fit search for a run of pages, the
reservation of the whole run, and then one frame per page and one table per directory entry
that has none.

The accounting is exact. `freeFrames` counts the unmarked frames, and `framesNeeded s b n`
what mapping the `n` pages from `b` on costs: `n` data frames and the tables missing for
them. `Progress s b i s'` describes the state after `i` pages of the loop; its counting
clause `freeFrames s' + framesNeeded s b i = freeFrames s` decides every failure. The loop
fails on the data frame of page `b + i` when `framesNeeded s b i` uses up the free frames,
and on its table when one frame is left and the page needs two (`RunsOutAtTable`).
-/

open Scan

namespace MyVm

namespace Space

/-! ### Definitions -/

/-- The search of `get_next_avail`: pages `1` to `num_virt_pages - 1`, first fit. -/
def findRun (s : Space) (n : ℕ) : Option ℕ := firstRun s.taken n (numVirtPages - 1) 1 0

/-- The loop of `n_malloc` from page `b + i`, with `n` pages to go; `false` after a failure,
which frees the `i` pages mapped so far. -/
def mallocPages (s : Space) (b : ℕ) : (i n : ℕ) → Space × Bool
  | _, 0 => (s, true)
  | i, n + 1 =>
    match s.alloc with
    | none => (s.freePages b i, false)
    | some (pa, s₁) =>
      match s₁.mapPage (b + i) pa with
      | none => (s₁.freePages b i, false)
      | some s₂ => mallocPages s₂ b (i + 1) n

/-- `n_malloc` of `n` pages: the number of the first one. -/
def malloc (s : Space) (n : ℕ) : Space × Option ℕ :=
  if n = 0 then (s, none)
  else
    match s.findRun n with
    | none => (s, none)
    | some b =>
      let r := (s.take b n).mallocPages b 0 n
      (r.1, if r.2 then some b else none)

/-- The number of frames that are not marked. -/
def freeFrames (s : Space) : ℕ := clearCount s.used numPhysPages

/-- The directory entries without a table that the `n` pages from `b` on fall under. -/
def missingTables (s : Space) (b n : ℕ) : Finset ℕ :=
  ((Finset.range n).image fun k => (b + k) / 1024).filter fun i => s.dir i = 0

/-- The frames it takes to map the `n` pages from `b` on. -/
def framesNeeded (s : Space) (b n : ℕ) : ℕ := n + (s.missingTables b n).card

/-- Frame number `f` holds a page table or a mapped page. -/
def Referenced (s : Space) (f : ℕ) : Prop :=
  (∃ i, s.dir i ≠ 0 ∧ s.dir i / 4096 = f) ∨ ∃ v, s.page v ≠ 0 ∧ s.page v / 4096 = f

variable {s s' s₁ s₂ : Space} {b n i v pa : ℕ}

/-! ### The search -/

/-- First fit over `virt_bitmap`. -/
theorem findRun_spec (s : Space) (hn : 0 < n) :
    FoundFrom s.taken n 1 numVirtPages (s.findRun n) := by
  have h := firstRun_spec s.taken hn 1 (numVirtPages - 1)
  rwa [show 1 + (numVirtPages - 1) = numVirtPages from rfl] at h

theorem findRun_eq_some (hn : 0 < n) (h : s.findRun n = some b) :
    1 ≤ b ∧ b + n ≤ numVirtPages ∧ IsRun s.taken n b ∧
      ∀ b', 1 ≤ b' → b' < b → ¬ IsRun s.taken n b' := by
  have hs := s.findRun_spec hn
  rw [h] at hs
  exact hs

/-- A run at `b` with no lower one is the run found. -/
theorem findRun_of_lowest (hn : 0 < n) (h1 : 1 ≤ b) (hb : b + n ≤ numVirtPages)
    (hr : IsRun s.taken n b) (hmin : ∀ b', 1 ≤ b' → b' < b → ¬ IsRun s.taken n b') :
    s.findRun n = some b := by
  have hs := s.findRun_spec hn
  cases hf : s.findRun n with
  | none =>
    rw [hf] at hs
    exact absurd hr (hs b h1 hb)
  | some c =>
    rw [hf] at hs
    obtain ⟨hc1, hc2, hc3, hc4⟩ := hs
    rcases Nat.lt_trichotomy b c with hlt | heq | hgt
    · exact absurd hr (hc4 b h1 hlt)
    · rw [heq]
    · exact absurd hc3 (hmin c hc1 hgt)

/-! ### Counting frames -/

theorem freeFrames_alloc (ha : s.alloc = some (pa, s')) :
    s'.freeFrames + 1 = s.freeFrames := by
  obtain ⟨f, hf, -, hu, -, rfl⟩ := alloc_eq_some ha
  exact clearCount_use hf hu

/-- Allocation fails exactly when no frame is free. -/
theorem alloc_eq_none_iff : s.alloc = none ↔ s.freeFrames = 0 := by
  rw [alloc_eq_none, freeFrames, clearCount_eq_zero]

theorem freeFrames_congr (h : s'.used = s.used) : s'.freeFrames = s.freeFrames := by
  unfold freeFrames
  rw [h]

theorem framesNeeded_congr (h : s'.dir = s.dir) : s'.framesNeeded b n = s.framesNeeded b n := by
  rw [framesNeeded, framesNeeded, missingTables, missingTables, h]

@[simp] theorem framesNeeded_zero (s : Space) (b : ℕ) : s.framesNeeded b 0 = 0 := rfl

/-- One more page costs its data frame, and a table unless an earlier page of the run
already brought it. -/
theorem framesNeeded_succ (s : Space) (b n : ℕ) :
    s.framesNeeded b (n + 1) = s.framesNeeded b n + 1 +
      if s.dir ((b + n) / 1024) = 0 ∧ ∀ k < n, (b + k) / 1024 ≠ (b + n) / 1024 then 1 else 0 := by
  unfold framesNeeded missingTables
  rw [Finset.range_add_one, Finset.image_insert, Finset.filter_insert]
  by_cases hd : s.dir ((b + n) / 1024) = 0
  · rw [if_pos hd]
    by_cases hk : ∀ k < n, (b + k) / 1024 ≠ (b + n) / 1024
    · rw [if_pos ⟨hd, hk⟩, Finset.card_insert_of_notMem]
      · omega
      · intro hm
        obtain ⟨hm, -⟩ := Finset.mem_filter.mp hm
        obtain ⟨k, hkn, hke⟩ := Finset.mem_image.mp hm
        exact hk k (Finset.mem_range.mp hkn) hke
    · rw [if_neg fun hc => hk hc.2, Finset.insert_eq_of_mem]
      · omega
      · push Not at hk
        obtain ⟨k, hkn, hke⟩ := hk
        exact Finset.mem_filter.mpr
          ⟨Finset.mem_image.mpr ⟨k, Finset.mem_range.mpr hkn, hke⟩, hd⟩
  · rw [if_neg hd, if_neg fun hc => hd hc.1]
    omega

theorem framesNeeded_mono (s : Space) (b : ℕ) (h : i ≤ n) :
    s.framesNeeded b i ≤ s.framesNeeded b n := by
  induction n with
  | zero =>
    obtain rfl : i = 0 := by omega
    exact le_rfl
  | succ n ih =>
    rcases Nat.lt_or_eq_of_le h with hlt | rfl
    · have := ih (by omega)
      rw [framesNeeded_succ]
      omega
    · exact le_rfl

/-! ### The loop -/

/-- The state `s'` after the loop mapped the first `i` pages of the run at `b`, from the
state `s` in which the run was reserved. -/
structure Progress (s : Space) (b i : ℕ) (s' : Space) : Prop where
  wf : s'.WF
  taken : s'.taken = s.taken
  /-- The pages of the run are mapped to frames that were free. -/
  mapped : ∀ k < i, s'.page (b + k) ≠ 0 ∧ s.used (s'.page (b + k) / 4096) = false
  /-- Every other page keeps its frame. -/
  other : ∀ v, (∀ k < i, v ≠ b + k) → s'.page v = s.page v
  /-- A table is present when it was, or when a page of the run needed it. -/
  dir_iff : ∀ t, s'.dir t = 0 ↔ s.dir t = 0 ∧ ∀ k < i, (b + k) / 1024 ≠ t
  dir_keep : ∀ t, s.dir t ≠ 0 → s'.dir t = s.dir t
  used_mono : ∀ f, s.used f = true → s'.used f = true
  /-- The frames marked meanwhile are referenced. -/
  used_new : ∀ f, s'.used f = true → s.used f = true ∨ s'.Referenced f
  count : s'.freeFrames + s.framesNeeded b i = s.freeFrames

theorem Progress.start (h : s.WF) (b : ℕ) : Progress s b 0 s where
  wf := h
  taken := rfl
  mapped := fun k hk => absurd hk (by omega)
  other := fun _ _ => rfl
  dir_iff := fun t => ⟨fun h => ⟨h, fun k hk => absurd hk (by omega)⟩, fun h => h.1⟩
  dir_keep := fun _ _ => rfl
  used_mono := fun _ h => h
  used_new := fun _ h => Or.inl h
  count := by rw [framesNeeded_zero, Nat.add_zero]

/-- The next page needs a table exactly when its directory entry is still empty. -/
theorem Progress.framesNeeded_succ (h : Progress s b i s') :
    s.framesNeeded b (i + 1)
      = s.framesNeeded b i + 1 + if s'.dir ((b + i) / 1024) = 0 then 1 else 0 := by
  rw [Space.framesNeeded_succ]
  congr 1
  exact if_congr (h.dir_iff _).symm rfl rfl

theorem update_true_of_true {used : ℕ → Bool} {f g : ℕ} (h : used g = true) :
    Function.update used f true g = true := by
  by_cases hg : g = f
  · rw [hg, Function.update_self]
  · rw [Function.update_of_ne hg]; exact h

theorem eq_or_used_of_update {used : ℕ → Bool} {f g : ℕ}
    (h : Function.update used f true g = true) : used g = true ∨ g = f := by
  by_cases hg : g = f
  · exact Or.inr hg
  · rw [Function.update_of_ne hg] at h
    exact Or.inl h

/-- Marking a frame that is already marked changes nothing. -/
theorem update_true_eq_self {used : ℕ → Bool} {f : ℕ} (h : used f = true) :
    Function.update used f true = used := by
  rw [← h, Function.update_eq_self]

/-- One successful iteration. -/
theorem Progress.step (h : Progress s b i s') (ht : ∀ k ≤ i, s.taken (b + k) = true)
    (hfree : s.page (b + i) = 0) (hb : 1 ≤ b) (hlt : b + i < numVirtPages)
    (ha : s'.alloc = some (pa, s₁)) (hm : s₁.mapPage (b + i) pa = some s₂) :
    Progress s b (i + 1) s₂ := by
  have hp' : s'.page (b + i) = 0 := by
    rw [h.other _ fun k hk => by omega]
    exact hfree
  obtain ⟨hra, hr, hu, hu'⟩ := h.wf.alloc_unref ha
  have hwf₁ := h.wf.alloc ha
  have hcount₁ := freeFrames_alloc ha
  have hs₁ : s₁.page = s'.page ∧ s₁.dir = s'.dir ∧ s₁.taken = s'.taken ∧
      (∀ f, s'.used f = true → s₁.used f = true) ∧
      ∀ f, s₁.used f = true → s'.used f = true ∨ f = pa / 4096 := by
    obtain ⟨f, -, rfl, -, -, rfl⟩ := alloc_eq_some ha
    rw [Nat.mul_div_cancel _ (by decide)]
    exact ⟨rfl, rfl, rfl, fun f h => update_true_of_true h, fun g hg => eq_or_used_of_update hg⟩
  obtain ⟨hp₁, hd₁, ht₁, hm₁, hn₁⟩ := hs₁
  have hwf₂ := hwf₁.mapPage hr hu (by rw [hp₁]; exact hp') (by omega) hlt hm
  have hfree₀ : s.used (pa / 4096) = false := by
    by_contra hc
    rw [h.used_mono _ (by simpa using hc)] at hu'
    exact absurd hu' (by decide)
  -- both successful outcomes install the same page; they differ in the table
  have main : ∃ s₃ : Space, s₂ = s₃.install (b + i) pa ∧ s₃.page = s'.page ∧
      s₃.taken = s'.taken ∧ s₃.used (pa / 4096) = true ∧
      (∀ f, s₁.used f = true → s₃.used f = true) ∧
      (∀ f, s₃.used f = true → s₁.used f = true ∨ ∃ t, s₃.dir t ≠ 0 ∧ s₃.dir t / 4096 = f) ∧
      (∀ t, s₃.dir t = 0 ↔ s'.dir t = 0 ∧ (b + i) / 1024 ≠ t) ∧
      (∀ t, s'.dir t ≠ 0 → s₃.dir t = s'.dir t) ∧
      s₃.freeFrames + (if s'.dir ((b + i) / 1024) = 0 then 1 else 0) = s₁.freeFrames := by
    obtain ⟨hd, he⟩ | ⟨-, -, he⟩ | ⟨hd, t, s₄, ha₄, he⟩ := mapPage_cases s₁ (b + i) pa
    · refine ⟨s₁, (Option.some.inj (he.symm.trans hm)).symm, hp₁, ht₁, hu, fun _ h => h,
        fun _ h => Or.inl h, fun t => ?_, fun t _ => by rw [hd₁], ?_⟩
      · rw [hd₁] at hd ⊢
        exact ⟨fun h0 => ⟨h0, fun hc => hd (by rw [hc]; exact h0)⟩, fun h0 => h0.1⟩
      · rw [← hd₁, if_neg hd, Nat.add_zero]
    · rw [he] at hm
      exact absurd hm (by simp)
    · have hc₄ := freeFrames_alloc ha₄
      obtain ⟨-, hrt, -, -⟩ := hwf₁.alloc_unref ha₄
      obtain ⟨f, -, rfl, -, -, rfl⟩ := alloc_eq_some ha₄
      refine ⟨_, (Option.some.inj (he.symm.trans hm)).symm, hp₁, ht₁, update_true_of_true hu,
        fun _ h => update_true_of_true h, fun g hg => ?_, fun t' => ?_, fun t' ht' => ?_, ?_⟩
      · rcases eq_or_used_of_update hg with hg | rfl
        · exact Or.inl hg
        · refine Or.inr ⟨(b + i) / 1024, ?_⟩
          simp only [Space.addTable, Function.update_self]
          exact ⟨hrt.pos, Nat.mul_div_cancel _ (by decide)⟩
      · simp only [Space.addTable]
        by_cases hte : t' = (b + i) / 1024
        · rw [hte, Function.update_self]
          exact ⟨fun h0 => absurd h0 hrt.pos, fun h0 => absurd rfl h0.2⟩
        · rw [Function.update_of_ne hte, hd₁]
          exact ⟨fun h0 => ⟨h0, Ne.symm hte⟩, fun h0 => h0.1⟩
      · simp only [Space.addTable]
        rw [Function.update_of_ne, hd₁]
        rintro rfl
        exact ht' (by rw [← hd₁]; exact hd)
      · rw [← hd₁, if_pos hd, ← hc₄]
        rfl
  obtain ⟨s₃, rfl, hp₃, ht₃, hu₃, hmono₃, hnew₃, hdir₃, hkeep₃, hcnt₃⟩ := main
  have hbi : ∀ w, w ≠ b + i → (s₃.install (b + i) pa).page w = s'.page w := by
    intro w hw
    simp only [Space.install]
    rw [Function.update_of_ne hw, hp₃]
  have hself : (s₃.install (b + i) pa).page (b + i) = pa := Function.update_self _ _ _
  refine
    { wf := hwf₂
      taken := ?_
      mapped := fun k hk => ?_
      other := fun w hw => ?_
      dir_iff := fun t => ?_
      dir_keep := fun t hd => ?_
      used_mono := fun f hf => ?_
      used_new := fun f hf => ?_
      count := ?_ }
  · simp only [Space.install]
    rw [ht₃, h.taken]
    exact update_true_eq_self (ht i le_rfl)
  · by_cases hki : k = i
    · rw [hki, hself]
      exact ⟨hr.pos, hfree₀⟩
    · rw [hbi _ (by omega)]
      exact h.mapped k (by omega)
  · rw [hbi _ (hw i (by omega))]
    exact h.other w fun k hk => hw k (by omega)
  · rw [show (s₃.install (b + i) pa).dir t = s₃.dir t from rfl, hdir₃, h.dir_iff]
    constructor
    · rintro ⟨⟨h0, hk⟩, hne⟩
      refine ⟨h0, fun k hki => ?_⟩
      by_cases he : k = i
      · rw [he]; exact hne
      · exact hk k (by omega)
    · rintro ⟨h0, hk⟩
      exact ⟨⟨h0, fun k hki => hk k (by omega)⟩, hk i (by omega)⟩
  · rw [show (s₃.install (b + i) pa).dir t = s₃.dir t from rfl]
    have := h.dir_keep t hd
    rw [hkeep₃ t (by rw [this]; exact hd), this]
  · exact update_true_of_true (hmono₃ f (hm₁ f (h.used_mono f hf)))
  · -- the data frame, the table, or a frame of an earlier iteration
    have hdata : (s₃.install (b + i) pa).Referenced (pa / 4096) :=
      Or.inr ⟨b + i, by rw [hself]; exact hr.pos, by rw [hself]⟩
    rcases eq_or_used_of_update hf with hf | rfl
    · rcases hnew₃ f hf with hf | ⟨t, ht0, hte⟩
      · rcases hn₁ f hf with hf | rfl
        · refine (h.used_new f hf).imp_right ?_
          rintro (⟨t, ht0, hte⟩ | ⟨w, hw0, hwe⟩)
          · exact Or.inl ⟨t, by rw [← hkeep₃ t ht0] at ht0; exact ht0,
              by rw [← hkeep₃ t ht0] at hte; exact hte⟩
          · have hwv : w ≠ b + i := fun hc => hw0 (by rw [hc]; exact hp')
            exact Or.inr ⟨w, by rw [hbi w hwv]; exact hw0, by rw [hbi w hwv]; exact hwe⟩
        · exact Or.inr hdata
      · exact Or.inr (Or.inl ⟨t, ht0, hte⟩)
    · exact Or.inr hdata
  · have hfr : (s₃.install (b + i) pa).freeFrames = s₃.freeFrames :=
      freeFrames_congr (update_true_eq_self hu₃)
    have := h.count
    rw [hfr, h.framesNeeded_succ]
    omega

/-- The loop fails at page `b + j`, in the state `s'` reached after `j` pages: on the data
frame, or on the table after the data frame was taken. `s₁` is the state that is rolled
back. -/
inductive FailsAt (s : Space) (b j : ℕ) (s' : Space) : Space → Prop
  | data : s'.alloc = none → s.framesNeeded b j = s.freeFrames → FailsAt s b j s' s'
  | table {pa : ℕ} {s₁ : Space} : s'.alloc = some (pa, s₁) → s₁.mapPage (b + j) pa = none →
      s.framesNeeded b j + 1 = s.freeFrames → s.framesNeeded b (j + 1) = s.freeFrames + 1 →
      FailsAt s b j s' s₁

/-- The outcome of the loop from the state `s` in which the run at `b` was reserved. -/
inductive MallocOutcome (s : Space) (b n : ℕ) : Space × Bool → Prop
  | success {s' : Space} : Progress s b n s' → MallocOutcome s b n (s', true)
  | failure {j : ℕ} {s' s₁ : Space} : j < n → Progress s b j s' → FailsAt s b j s' s₁ →
      MallocOutcome s b n (s₁.freePages b j, false)

/-- **The loop of `n_malloc`**, from any point of it. -/
theorem mallocPages_outcome {m : ℕ} (ht : ∀ k < i + m, s.taken (b + k) = true)
    (hfree : ∀ k < i + m, s.page (b + k) = 0) (hb : 1 ≤ b) (hlt : b + (i + m) ≤ numVirtPages)
    (h : Progress s b i s') : MallocOutcome s b (i + m) (s'.mallocPages b i m) := by
  induction m generalizing i s' with
  | zero => exact .success h
  | succ m ih =>
    have hcount := h.count
    rw [mallocPages]
    cases ha : s'.alloc with
    | none =>
      refine .failure (j := i) (by omega) h (.data ha ?_)
      rw [alloc_eq_none_iff] at ha
      omega
    | some r =>
      obtain ⟨pa, s₁⟩ := r
      have hcount₁ := freeFrames_alloc ha
      cases hm : s₁.mapPage (b + i) pa with
      | none =>
        -- the table is missing, and the data frame was the last one
        have hd₁ : s₁.dir = s'.dir := by
          obtain ⟨f, -, -, -, -, rfl⟩ := alloc_eq_some ha
          rfl
        obtain ⟨-, he⟩ | ⟨hd, ha₁, -⟩ | ⟨-, t, s₂, -, he⟩ := mapPage_cases s₁ (b + i) pa
        · rw [he] at hm; exact absurd hm (by simp)
        · rw [alloc_eq_none_iff] at ha₁
          simp only [hm]
          refine .failure (j := i) (by omega) h (.table ha hm (by omega) ?_)
          rw [h.framesNeeded_succ, ← hd₁, if_pos hd]
          omega
        · rw [he] at hm; exact absurd hm (by simp)
      | some s₂ =>
        have hstep := h.step (fun k hk => ht k (by omega)) (hfree i (by omega)) hb (by omega) ha hm
        have := ih (i := i + 1) (fun k hk => ht k (by omega)) (fun k hk => hfree k (by omega))
          (by omega) hstep
        rw [show i + 1 + m = i + (m + 1) by omega] at this
        simpa only [hm] using this

/-- The loop succeeds exactly when there are enough free frames. -/
theorem MallocOutcome.ok_iff {r : Space × Bool} (h : MallocOutcome s b n r) :
    r.2 = true ↔ s.framesNeeded b n ≤ s.freeFrames := by
  cases h with
  | success hp =>
    have := hp.count
    simp only [true_iff]
    omega
  | failure hj hp hf =>
    simp only [Bool.false_eq_true, false_iff, not_le]
    have hmono := s.framesNeeded_mono b (i := _ + 1) (n := n) hj
    cases hf with
    | data ha he =>
      rw [framesNeeded_succ] at hmono
      omega
    | table _ _ _ he => omega

/-! ### Freeing the pages of a run -/

theorem freePages_page (s : Space) (v n w : ℕ) :
    (s.freePages v n).page w
      = if ∃ k < n, w = (v + k) % numVirtPages then 0 else s.page w := by
  induction n with
  | zero => simp [freePages]
  | succ n ih =>
    rw [freePages, freePage_page]
    by_cases hw : w = (v + n) % numVirtPages
    · rw [← hw, Function.update_self, if_pos ⟨n, by omega, hw⟩]
    · rw [Function.update_of_ne hw, ih]
      refine if_congr ?_ rfl rfl
      constructor
      · rintro ⟨k, hk, he⟩
        exact ⟨k, by omega, he⟩
      · rintro ⟨k, hk, he⟩
        by_cases hkn : k = n
        · rw [hkn] at he; exact absurd he hw
        · exact ⟨k, by omega, he⟩

theorem FailsAt.wf (h : FailsAt s b i s' s₁) (hp : Progress s b i s') : s₁.WF := by
  cases h with
  | data => exact hp.wf
  | table ha => exact hp.wf.alloc ha

/-- The state rolled back has the tables and the reservations of the loop state. -/
theorem FailsAt.same (h : FailsAt s b i s' s₁) :
    s₁.page = s'.page ∧ s₁.dir = s'.dir ∧ s₁.taken = s'.taken := by
  cases h with
  | data => exact ⟨rfl, rfl, rfl⟩
  | table ha =>
    obtain ⟨f, -, -, -, -, rfl⟩ := alloc_eq_some ha
    exact ⟨rfl, rfl, rfl⟩

theorem MallocOutcome.wf {r : Space × Bool} (h : MallocOutcome s b n r) : r.1.WF := by
  cases h with
  | success hp => exact hp.wf
  | failure _ hp hf => exact (hf.wf hp).freePages _ _

end Space

end MyVm
