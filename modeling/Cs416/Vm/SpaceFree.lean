import Cs416.Vm.Capacity

/-!
# Freeing on an address space

What `freePages` leaves behind, map by map: the pages of the range are unmapped, their bits
and those of the frames that lost their last reference are clear, and a table is gone exactly
if none of its pages is mapped any more. All of it is derived from the effect of freeing one
page on the references (`WF.used_freePage`).

From there `WF.free_malloc` follows: freeing the pages that a request has mapped gives back
the address space as it was, also the tables that the request created, and none that it found.
-/

open Scan

namespace MyVm

namespace Space

variable {s s' s₁ s₂ : Space} {b n i v w f pa : ℕ}

/-- `w` is one of the `n` pages from page `v` on, page numbers taken modulo `2 ^ 20`. -/
def InRange (v n w : ℕ) : Prop := ∃ k < n, w = (v + k) % numVirtPages

theorem inRange_succ : InRange v (n + 1) w ↔ InRange v n w ∨ w = (v + n) % numVirtPages := by
  constructor
  · rintro ⟨k, hk, he⟩
    by_cases hkn : k = n
    · exact .inr (hkn ▸ he)
    · exact .inl ⟨k, by omega, he⟩
  · rintro (⟨k, hk, he⟩ | he)
    · exact ⟨k, by omega, he⟩
    · exact ⟨n, by omega, he⟩

/-! ### References -/

theorem Isolated.used_of_referenced (h : s.Isolated) (hr : s.Referenced f) : s.used f = true := by
  obtain ⟨i, hi, rfl⟩ | ⟨v, hv, rfl⟩ := hr
  · exact (h.dir_frame i hi).2
  · exact (h.page_frame v hv).2

theorem freePage_dir_keep (hd : (s.freePage v).dir i ≠ 0) : (s.freePage v).dir i = s.dir i := by
  unfold freePage at hd ⊢
  split_ifs at hd ⊢ with h0 he
  · rfl
  · simp only [dropTable, clearPage] at hd ⊢
    by_cases hi : i = v / 1024
    · rw [hi, Function.update_self] at hd
      exact absurd rfl hd
    · rw [Function.update_of_ne hi]
  · rfl

theorem freePage_page_keep (hp : (s.freePage v).page w ≠ 0) : (s.freePage v).page w = s.page w := by
  rw [freePage_page] at hp ⊢
  by_cases hw : w = v
  · rw [hw, Function.update_self] at hp
    exact absurd rfl hp
  · rw [Function.update_of_ne hw]

theorem freePage_taken (s : Space) (v : ℕ) :
    (s.freePage v).taken = if s.page v = 0 then s.taken else Function.update s.taken v false := by
  unfold freePage
  split_ifs <;> rfl

/-- The marks that freeing a page removes. -/
theorem freePage_used_cases (h : s.WF) (hu : s.used f = true) :
    (s.freePage v).used f = true ∨ s.Referenced f ∧ ¬ (s.freePage v).Referenced f := by
  have h' := (h.freePage v).toIsolated
  by_cases hu' : (s.freePage v).used f = true
  · exact .inl hu'
  refine .inr ⟨?_, fun hr => hu' (h'.used_of_referenced hr)⟩
  unfold freePage at hu'
  split_ifs at hu' with h0 he
  · exact absurd hu hu'
  · simp only [dropTable, clearPage] at hu'
    by_cases hd : f = s.dir (v / 1024) / 4096
    · exact .inl ⟨_, h.page_dir v h0, hd.symm⟩
    · rw [Function.update_of_ne hd] at hu'
      by_cases hp : f = s.page v / 4096
      · exact .inr ⟨v, h0, hp.symm⟩
      · rw [Function.update_of_ne hp] at hu'
        exact absurd hu hu'
  · simp only [clearPage] at hu'
    by_cases hp : f = s.page v / 4096
    · exact .inr ⟨v, h0, hp.symm⟩
    · rw [Function.update_of_ne hp] at hu'
      exact absurd hu hu'

theorem freePage_used_of (hu : (s.freePage v).used f = true) : s.used f = true := by
  have hmono : ∀ {used : ℕ → Bool} {g : ℕ}, Function.update used g false f = true →
      used f = true := by
    intro used g hg
    by_cases hfg : f = g
    · rw [hfg, Function.update_self] at hg
      exact absurd hg (by decide)
    · rwa [Function.update_of_ne hfg] at hg
  unfold freePage at hu
  split_ifs at hu
  · exact hu
  · exact hmono (hmono hu)
  · exact hmono hu

theorem freePage_referenced_of (hr : (s.freePage v).Referenced f) : s.Referenced f := by
  obtain ⟨i, hi, he⟩ | ⟨w, hw, he⟩ := hr
  · have hk := freePage_dir_keep hi
    exact .inl ⟨i, by rw [← hk]; exact hi, by rw [← hk]; exact he⟩
  · have hk := freePage_page_keep hw
    exact .inr ⟨w, by rw [← hk]; exact hw, by rw [← hk]; exact he⟩

/-- Freeing a page removes the mark of a frame exactly if the frame loses its reference. -/
theorem WF.used_freePage (h : s.WF) (v f : ℕ) : (s.freePage v).used f = true ↔
    s.used f = true ∧ (s.Referenced f → (s.freePage v).Referenced f) := by
  constructor
  · intro hu
    refine ⟨freePage_used_of hu, fun hr => ?_⟩
    -- a frame that lost its reference is the page's or its table's, and both marks are gone
    by_contra hc
    unfold Space.freePage at hu hc
    split_ifs at hu hc with h0 he
    · exact hc hr
    · simp only [dropTable, clearPage] at hu
      by_cases hd : f = s.dir (v / 1024) / 4096
      · rw [hd, Function.update_self] at hu
        exact absurd hu (by decide)
      rw [Function.update_of_ne hd] at hu
      by_cases hp : f = s.page v / 4096
      · rw [hp, Function.update_self] at hu
        exact absurd hu (by decide)
      refine hc ?_
      obtain ⟨i, hi, rfl⟩ | ⟨w, hw, rfl⟩ := hr
      · have hne : i ≠ v / 1024 := fun hc => hd (by rw [hc])
        exact .inl ⟨i, by simpa only [dropTable, clearPage, Function.update_of_ne hne] using hi,
          by simp only [dropTable, clearPage, Function.update_of_ne hne]⟩
      · have hne : w ≠ v := fun hc => hp (by rw [hc])
        exact .inr ⟨w, by simpa only [dropTable, clearPage, Function.update_of_ne hne] using hw,
          by simp only [dropTable, clearPage, Function.update_of_ne hne]⟩
    · simp only [clearPage] at hu
      by_cases hp : f = s.page v / 4096
      · rw [hp, Function.update_self] at hu
        exact absurd hu (by decide)
      refine hc ?_
      obtain hr | ⟨w, hw, rfl⟩ := hr
      · exact .inl hr
      · have hne : w ≠ v := fun hc => hp (by rw [hc])
        exact .inr ⟨w, by simpa only [clearPage, Function.update_of_ne hne] using hw,
          by simp only [clearPage, Function.update_of_ne hne]⟩
  · rintro ⟨hu, hr⟩
    obtain hu' | ⟨hr₀, hn⟩ := freePage_used_cases h hu
    · exact hu'
    · exact absurd (hr hr₀) hn

/-! ### Freeing a range -/

theorem freePages_dir_keep (hd : (s.freePages v n).dir i ≠ 0) :
    (s.freePages v n).dir i = s.dir i := by
  induction n with
  | zero => rfl
  | succ n ih =>
    rw [freePages] at hd ⊢
    have hk := freePage_dir_keep hd
    rw [hk] at hd ⊢
    exact ih hd

theorem freePages_page_keep (hp : (s.freePages v n).page w ≠ 0) :
    (s.freePages v n).page w = s.page w := by
  rw [freePages_page] at hp ⊢
  split_ifs at hp ⊢ with h
  · exact absurd rfl hp
  · rfl

/-- A bit in `virt_bitmap` is cleared with its page only. -/
theorem freePages_taken (s : Space) (v n w : ℕ) :
    (InRange v n w ∧ s.page w ≠ 0 → (s.freePages v n).taken w = false) ∧
      (¬ (InRange v n w ∧ s.page w ≠ 0) → (s.freePages v n).taken w = s.taken w) := by
  induction n with
  | zero => exact ⟨fun ⟨⟨k, hk, _⟩, _⟩ => absurd hk (by omega), fun _ => rfl⟩
  | succ n ih =>
    rw [freePages, freePage_taken, inRange_succ, freePages_page]
    by_cases hw : w = (v + n) % numVirtPages
    · rw [← hw]
      by_cases hin : InRange v n w
      · -- the page has been freed before
        rw [if_pos (show ∃ k < n, w = (v + k) % numVirtPages from hin), if_pos rfl]
        exact ⟨fun h => ih.1 ⟨hin, h.2⟩, fun h => ih.2 fun hc => h ⟨.inl hin, hc.2⟩⟩
      · rw [if_neg (show ¬ ∃ k < n, w = (v + k) % numVirtPages from hin)]
        by_cases h0 : s.page w = 0
        · rw [if_pos h0]
          exact ⟨fun h => absurd h0 h.2, fun _ => ih.2 fun hc => hc.2 h0⟩
        · rw [if_neg h0, Function.update_self]
          exact ⟨fun _ => rfl, fun h => absurd ⟨.inr rfl, h0⟩ h⟩
    · have hsame : ∀ c, (if c = 0 then (s.freePages v n).taken
          else Function.update (s.freePages v n).taken ((v + n) % numVirtPages) false) w
            = (s.freePages v n).taken w := by
        intro c
        split
        · rfl
        · exact Function.update_of_ne hw _ _
      rw [hsame]
      exact ⟨fun h => ih.1 ⟨h.1.resolve_right hw, h.2⟩,
        fun h => ih.2 fun hc => h ⟨.inl hc.1, hc.2⟩⟩

/-- Freeing a range removes the mark of a frame exactly if the frame loses its reference. -/
theorem WF.used_freePages (h : s.WF) (v n f : ℕ) : (s.freePages v n).used f = true ↔
    s.used f = true ∧ (s.Referenced f → (s.freePages v n).Referenced f) := by
  induction n with
  | zero => exact ⟨fun hu => ⟨hu, id⟩, fun hu => hu.1⟩
  | succ n ih =>
    rw [Space.freePages, (h.freePages v n).used_freePage, ih]
    have hback : (s.freePages v n).Referenced f → s.Referenced f := by
      rintro (⟨i, hi, he⟩ | ⟨w, hw, he⟩)
      · have hk := freePages_dir_keep hi
        exact .inl ⟨i, by rw [← hk]; exact hi, by rw [← hk]; exact he⟩
      · have hk := freePages_page_keep hw
        exact .inr ⟨w, by rw [← hk]; exact hw, by rw [← hk]; exact he⟩
    constructor
    · rintro ⟨⟨hu, h1⟩, h2⟩
      exact ⟨hu, fun hr => h2 (h1 hr)⟩
    · rintro ⟨hu, h1⟩
      exact ⟨⟨hu, fun hr => freePage_referenced_of (h1 hr)⟩, fun hr => h1 (hback hr)⟩

/-- A table is there exactly if a page of it is mapped. -/
theorem WF.dir_iff (h : s.WF) : s.dir i ≠ 0 ↔ ∃ w, w / 1024 = i ∧ s.page w ≠ 0 := by
  refine ⟨h.dir_nonempty i, ?_⟩
  rintro ⟨w, rfl, hw⟩
  exact h.page_dir w hw

/-- The tables of `s'` are those of `s`, or they occupy frames that `s` has not marked. -/
def NewTables (s s' : Space) : Prop :=
  ∀ t, s'.dir t ≠ 0 → s'.dir t = s.dir t ∨ s.used (s'.dir t / 4096) = false

/-- Mapping one page, with a new table if need be. -/
theorem NewTables.mapPage (h : NewTables s s') (hmono : ∀ f, s.used f = true → s'.used f = true)
    (ha : s'.alloc = some (pa, s₁)) (hm : s₁.mapPage v pa = some s₂) :
    NewTables s s₂ ∧ ∀ f, s.used f = true → s₂.used f = true := by
  obtain ⟨f, -, -, -, -, rfl⟩ := alloc_eq_some ha
  have hmono₁ : ∀ g, s.used g = true → Function.update s'.used f true g = true :=
    fun g hg => update_true_of_true (hmono g hg)
  obtain ⟨-, he⟩ | ⟨-, -, he⟩ | ⟨-, t, s₃, ha₃, he⟩ := mapPage_cases _ v pa
  · obtain rfl := Option.some.inj (he.symm.trans hm)
    exact ⟨h, fun g hg => update_true_of_true (hmono₁ g hg)⟩
  · rw [he] at hm
    exact absurd hm (by simp)
  · obtain rfl := Option.some.inj (he.symm.trans hm)
    obtain ⟨g, -, rfl, hg, -, rfl⟩ := alloc_eq_some ha₃
    refine ⟨fun t ht => ?_, fun k hk => update_true_of_true (update_true_of_true (hmono₁ k hk))⟩
    simp only [install, addTable] at ht ⊢
    by_cases hte : t = v / 1024
    · -- the new table: its frame was not marked
      rw [hte, Function.update_self, Nat.mul_div_cancel _ (by decide)]
      refine .inr ?_
      by_contra hc
      dsimp only at hg
      rw [hmono₁ g (by simpa using hc)] at hg
      exact absurd hg (by decide)
    · rw [Function.update_of_ne hte] at ht ⊢
      exact h t ht

theorem NewTables.mallocPages (h : NewTables s s')
    (hmono : ∀ f, s.used f = true → s'.used f = true)
    (hok : (s'.mallocPages b i n).2 = true) : NewTables s (s'.mallocPages b i n).1 := by
  induction n generalizing i s' with
  | zero => exact h
  | succ n ih =>
    rw [Space.mallocPages] at hok ⊢
    cases ha : s'.alloc with
    | none =>
      rw [ha] at hok
      exact absurd hok (by simp)
    | some r =>
      obtain ⟨pa, s₁⟩ := r
      rw [ha] at hok
      dsimp only at hok ⊢
      cases hm : s₁.mapPage (b + i) pa with
      | none =>
        rw [hm] at hok
        exact absurd hok (by simp)
      | some s₂ =>
        rw [hm] at hok
        obtain ⟨h₂, hmono₂⟩ := h.mapPage hmono ha hm
        exact ih h₂ hmono₂ hok

/-- **Freeing what a request has mapped** gives back the address space. -/
theorem WF.free_malloc (h : s.WF) (hn : 0 < n) (hr : (s.malloc n).2 = some b) :
    (s.malloc n).1.freePages b n = s := by
  cases hf : s.findRun n with
  | none =>
    rw [malloc, if_neg (by omega), hf] at hr
    exact absurd hr (by simp)
  | some b' =>
    obtain ⟨hb1, hbn, hrun, -⟩ := findRun_eq_some hn hf
    have hfree : ∀ k < n, s.page (b' + k) = 0 := fun k hk => h.page_of_run hrun hk
    have hout := malloc_outcome h hn hf
    have hnew : NewTables (s.take b' n) (s.take b' n) := fun _ _ => .inl rfl
    rw [malloc_of_findRun hn hf] at hr ⊢
    dsimp only at hr ⊢
    have hok : ((s.take b' n).mallocPages b' 0 n).2 = true := by
      by_contra hc
      rw [if_neg hc] at hr
      exact absurd hr (by simp)
    replace hnew := hnew.mallocPages (fun _ hu => hu) hok
    obtain rfl : b' = b := by
      rw [if_pos hok] at hr
      exact Option.some.inj hr
    generalize (s.take b' n).mallocPages b' 0 n = out at hout hok hnew ⊢
    cases hout with
    | failure => exact absurd hok (by simp)
    | success hp =>
      rename_i s₁
      dsimp only at hnew ⊢
      have hin : ∀ w, InRange b' n w ↔ ∃ k < n, w = b' + k := fun w =>
        exists_congr fun k => and_congr_right fun hk => by rw [Nat.mod_eq_of_lt (by omega)]
      have hpage : (s₁.freePages b' n).page = s.page := by
        funext w
        rw [freePages_page]
        split
        · next hw =>
          obtain ⟨k, hk, rfl⟩ := (hin w).mp hw
          exact (hfree k hk).symm
        · next hw => exact hp.other w fun k hk hc => hw ((hin w).mpr ⟨k, hk, hc⟩)
      have hwf := hp.wf.freePages b' n
      have hdir : (s₁.freePages b' n).dir = s.dir := by
        funext t
        by_cases ht : s.dir t = 0
        · -- a table that the request created is empty again
          rw [ht]
          by_contra hc
          obtain ⟨w, hwt, hw⟩ := hwf.dir_iff.mp hc
          rw [hpage] at hw
          exact h.dir_iff.mpr ⟨w, hwt, hw⟩ ht
        · have ht' : (s₁.freePages b' n).dir t ≠ 0 := by
            rw [hwf.dir_iff, hpage]
            exact h.dir_iff.mp ht
          rw [freePages_dir_keep ht']
          exact hp.dir_keep t ht
      have href : ∀ f, (s₁.freePages b' n).Referenced f ↔ s.Referenced f := fun f => by
        rw [Referenced, Referenced, hdir, hpage]
      refine Space.ext hdir hpage (funext fun f => ?_) (funext fun w => ?_)
      · rw [Bool.eq_iff_iff, hp.wf.used_freePages, href]
        constructor
        · rintro ⟨hu, hr⟩
          obtain hu | hr' := hp.used_new f hu
          · exact hu
          · exact h.toIsolated.used_of_referenced (hr hr')
        · intro hu
          refine ⟨hp.used_mono f hu, ?_⟩
          -- a marked frame that is referenced now was referenced before
          rintro (⟨t, ht, rfl⟩ | ⟨w, hw, rfl⟩)
          · obtain he | he := hnew t ht
            · exact .inl ⟨t, by rw [he] at ht; exact ht, by rw [he]; rfl⟩
            · rw [show (s.take b' n).used = s.used from rfl, hu] at he
              exact absurd he (by decide)
          · by_cases hwr : ∃ k < n, w = b' + k
            · obtain ⟨k, hk, rfl⟩ := hwr
              have hnu := (hp.mapped k hk).2
              rw [show (s.take b' n).used = s.used from rfl, hu] at hnu
              exact absurd hnu (by decide)
            · have he : s₁.page w = s.page w := hp.other w fun k hk hc => hwr ⟨k, hk, hc⟩
              exact .inr ⟨w, by rw [← he]; exact hw, by rw [he]⟩
      · by_cases hw : InRange b' n w
        · obtain ⟨k, hk, rfl⟩ := (hin w).mp hw
          rw [(freePages_taken s₁ b' n _).1 ⟨hw, (hp.mapped k hk).1⟩]
          exact (hrun _ (by omega) (by omega)).symm
        · rw [(freePages_taken s₁ b' n _).2 fun hc => hw hc.1, hp.taken, Space.take]
          dsimp only
          rw [decide_eq_false, Bool.false_or]
          rintro ⟨h1, h2⟩
          exact hw ((hin w).mpr ⟨w - b', by omega, by omega⟩)

end Space

end MyVm
