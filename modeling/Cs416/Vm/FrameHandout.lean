import Cs416.Vm.SectionEffect

/-!
# Frames and pages under concurrent allocation

The threads share the frames and the pages (`Apart`): each frame that a thread has in its locals
and each page that it works on or has allocated is its own. A section keeps this when the byte it
writes of `phys_bitmap` is up to date, and the only section that may not be is the store of
`n_free` behind an allocation in the byte that it has loaded.
-/

open ByteMem FlatMem Lts Function

namespace MyVm

namespace Allocator

/-! ### The invariant -/

section

variable {T : Type} {heap : Bytes} {s : State T} {vm : Vm} {t : T} {sec : Section}

/-- **How the threads share the frames and the pages** between two sections. -/
structure Apart (vm : Vm) (s : State T) : Prop where
  pageDir : vm.pageDir = 0
  isolated : vm.space.Isolated
  ok : ∀ t, (s.threads t).Ok vm
  frames : ∀ t, ∀ a ∈ (s.threads t).frames, vm.space.Reserved a
  framesOnce : ∀ t, (s.threads t).frames.Nodup
  framesApart : ∀ t t' a, a ∈ (s.threads t).frames → a ∈ (s.threads t').frames → t = t'
  pages : ∀ t, ∀ v ∈ (s.threads t).pages, vm.space.taken v = true ∧ v ≠ 0
  pagesApart : ∀ t t' v, v ∈ (s.threads t).pages → v ∈ (s.threads t').pages → t = t'
  live : ∀ a ∈ s.live, ∀ v ∈ a.2, vm.space.taken v = true ∧ v ≠ 0
  liveApart : ∀ a ∈ s.live, ∀ t, Disjoint a.2 (s.threads t).pages
  liveOnce : s.live.Pairwise fun a b => Disjoint a.2 b.2
  holder : ∀ f t, s.holder f = some t → vm.space.used f = true
  lock : ∀ t, (s.threads t).inside = true ↔ s.pageTableLock = some t

theorem Apart.ready (h : Apart vm s) (hs : s.threads t = .running sec) : Ready vm sec := by
  have hok := h.ok t
  have hframes := h.frames t
  have honce := h.framesOnce t
  have hpages := h.pages t
  rw [hs] at hok hframes honce hpages
  exact ⟨h.pageDir, h.isolated, hok, hframes, honce, hpages⟩

/-- At most one thread is inside. -/
theorem Apart.outside (h : Apart vm s) (hs : s.threads t = .running sec) {t' : T} (hne : t' ≠ t)
    (hin : (s.threads t').inside = true) : sec.inside = false := by
  by_contra hsec
  have hself : (s.threads t).inside = true := by
    rw [hs]
    exact Bool.eq_true_of_not_eq_false hsec
  exact hne (Option.some.inj (((h.lock t').mp hin).symm.trans ((h.lock t).mp hself)))

/-- The frames of the other threads. -/
theorem Apart.frames_other (h : Apart vm s) (hs : s.threads t = .running sec) {t' : T}
    (hne : t' ≠ t) {a : ℕ} (ha : a ∈ (s.threads t').frames) :
    a ∉ sec.frames ∧ (sec.next vm).1.space.Reserved a := by
  have e := (h.ready hs).effect
  have hr := h.frames t' a ha
  have hnot : a ∉ sec.frames := by
    intro hmem
    refine hne (h.framesApart t' t a ha ?_)
    rw [hs]
    exact hmem
  refine ⟨hnot, e.unref a hr.1 hnot, ?_⟩
  rcases e.used _ hr.2 with hu | hrel
  · exact hu
  · obtain ⟨b, hb, hbn⟩ := Section.releases_frames hrel
    have hbr := (h.ready hs).frames b hb
    exact absurd (IsFrame.number_inj hbr.1.frame hr.1.frame hbn ▸ hb) hnot

/-- The pages of the other threads are none of the section's. -/
theorem Apart.pages_other (h : Apart vm s) (hs : s.threads t = .running sec) {t' : T}
    (hne : t' ≠ t) {v : ℕ} (hv : v ∈ (s.threads t').pages) : v ∉ sec.pages := by
  intro hmem
  refine hne (h.pagesApart t' t v hv ?_)
  rw [hs]
  exact hmem

/-- A frame the thread has after the section is no other thread's. -/
theorem Apart.frames_own (h : Apart vm s) (hs : s.threads t = .running sec) {a : ℕ}
    (ha : a ∈ (sec.next vm).2.frames) {t' : T} (hne : t' ≠ t) : a ∉ (s.threads t').frames := by
  intro hmem
  obtain ⟨-, hsec | hfresh⟩ := (h.ready hs).effect.frames a ha
  · exact (h.frames_other hs hne hmem).1 hsec
  · exact hfresh (h.frames t' a hmem)

/-- A page the thread works on or returns is nobody else's. -/
theorem Apart.pages_own (h : Apart vm s) (hs : s.threads t = .running sec) {v : ℕ}
    (hv : v ∈ (sec.next vm).2.pages ∪ sec.grants.getD ∅) :
    (∀ t', t' ≠ t → v ∉ (s.threads t').pages) ∧ ∀ a ∈ s.live, v ∉ a.2 := by
  have e := (h.ready hs).effect
  obtain ⟨-, -, hsec | hfree⟩ := e.pages v hv
  · refine ⟨fun t' hne hmem => h.pages_other hs hne hmem hsec, fun a ha hmem => ?_⟩
    refine Finset.disjoint_left.mp (h.liveApart a ha t) hmem ?_
    rw [hs]
    exact hsec
  · refine ⟨fun t' _ hmem => ?_, fun a ha hmem => ?_⟩
    · rw [(h.pages t' v hmem).1] at hfree
      exact absurd hfree (by decide)
    · rw [(h.live a ha v hmem).1] at hfree
      exact absurd hfree (by decide)

variable [DecidableEq T]

theorem after_threads (t' : T) : (s.after t sec vm).threads t'
    = if t' = t then (sec.next vm).2 else s.threads t' := update_apply _ _ _ _

theorem Apart.after_lock (h : Apart vm s) (hs : s.threads t = .running sec)
    (hfree : sec.locks = true → s.pageTableLock = none) (t' : T) :
    ((s.after t sec vm).threads t').inside = true ↔ (s.after t sec vm).pageTableLock = some t' := by
  have hself := h.lock t
  rw [hs] at hself
  change sec.inside = true ↔ _ at hself
  have hother := h.lock t'
  have hnext : sec.inside = false → sec.locks = false → (sec.next vm).2.inside = false :=
    Section.next_inside
  rw [after_threads]
  unfold State.after
  dsimp only
  by_cases htt : t' = t
  -- the thread itself holds the lock exactly when it is inside again
  · subst htt
    rw [if_pos rfl]
    split
    · next hin => exact iff_of_true hin rfl
    · next hin =>
      refine iff_of_false hin ?_
      split
      · exact Option.some_ne_none _ ∘ Eq.symm
      · next hsec => exact fun hlock => hsec (hself.mpr hlock)
  -- of another thread nothing changes, but the lock may have been taken or given up
  · rw [if_neg htt]
    have hapart : s.pageTableLock = some t → (s.threads t').inside ≠ true := fun hlock hin =>
      htt (Option.some.inj ((hother.mp hin).symm.trans hlock))
    split
    · next hin =>
      refine iff_of_false ?_ fun heq => htt (Option.some.inj heq).symm
      by_cases hsec : sec.inside = true
      · exact hapart (hself.mp hsec)
      -- `t` comes in, so the lock was free and nobody else was inside
      · have hlocks : sec.locks = true := by
          by_contra hl
          rw [hnext (Bool.eq_false_of_not_eq_true hsec) (Bool.eq_false_of_not_eq_true hl)] at hin
          exact absurd hin (by decide)
        rw [hother, hfree hlocks]
        exact Option.some_ne_none _ ∘ Eq.symm
    · split
      · next hsec => exact iff_of_false (hapart (hself.mp hsec)) (Option.some_ne_none _ ∘ Eq.symm)
      · exact hother

/-- **One section keeps the threads apart**, if it leaves the byte alone that another thread is
about to store. -/
theorem Apart.after (h : Apart vm s) (hs : s.threads t = .running sec)
    (hfree : sec.locks = true → s.pageTableLock = none)
    (hbyte : ∀ t' fr pde byte, t' ≠ t → s.threads t' = .running (.storeByte fr pde byte) →
      (sec.next vm).1.physBitmap ((pde >>> pfnShift) / 8)
        = vm.physBitmap ((pde >>> pfnShift) / 8)) :
    Apart (sec.next vm).1 (s.after t sec vm) := by
  have e := (h.ready hs).effect
  -- an allocation that is live now was live before, or is what the section returns
  have hlive : ∀ a ∈ (s.after t sec vm).live,
      a ∈ s.live ∨ a.1 = t ∧ a.2 = sec.grants.getD ∅ := by
    intro a ha
    unfold State.after at ha
    dsimp only at ha
    split at ha
    · next A hA =>
      rcases List.mem_cons.mp ha with rfl | ha
      · exact .inr ⟨rfl, by rw [hA]; rfl⟩
      · exact .inl ha
    · exact .inl ha
  refine
    { pageDir := e.pageDir
      isolated := e.isolated
      ok := fun t' => ?_
      frames := fun t' a ha => ?_
      framesOnce := fun t' => ?_
      framesApart := fun t₁ t₂ a h₁ h₂ => ?_
      pages := fun t' v hv => ?_
      pagesApart := fun t₁ t₂ v h₁ h₂ => ?_
      live := fun a ha v hv => ?_
      liveApart := fun a ha t' => ?_
      liveOnce := ?_
      holder := fun f t' hf => ?_
      lock := h.after_lock hs hfree }
  -- the other threads can still rely on what they have seen
  · rw [after_threads]
    split
    · exact e.ok
    · next hne =>
      exact e.ok_other (h.ok t') (h.outside hs hne) (fun v hv => h.pages_other hs hne hv)
        fun fr pde byte heq => hbyte t' fr pde byte hne heq
  -- frames: those of the section are its own, those of the others stay reserved
  · rw [after_threads] at ha
    split at ha
    · exact (e.frames a ha).1
    · next hne => exact (h.frames_other hs hne ha).2
  · rw [after_threads]
    split
    · exact e.framesOnce
    · exact h.framesOnce t'
  · rw [after_threads] at h₁ h₂
    split at h₁ <;> rename_i hne₁ <;> split at h₂ <;> rename_i hne₂
    · exact hne₁.trans hne₂.symm
    · exact absurd h₂ (h.frames_own hs h₁ hne₂)
    · exact absurd h₁ (h.frames_own hs h₂ hne₁)
    · exact h.framesApart t₁ t₂ a h₁ h₂
  -- pages, likewise
  · rw [after_threads] at hv
    split at hv
    · obtain ⟨ht, h0, -⟩ := e.pages v (Finset.mem_union_left _ hv)
      exact ⟨ht, h0⟩
    · next hne =>
      obtain ⟨ht, h0⟩ := h.pages t' v hv
      exact ⟨e.taken v (h.pages_other hs hne hv) ht, h0⟩
  · rw [after_threads] at h₁ h₂
    split at h₁ <;> rename_i hne₁ <;> split at h₂ <;> rename_i hne₂
    · exact hne₁.trans hne₂.symm
    · exact absurd h₂ ((h.pages_own hs (Finset.mem_union_left _ h₁)).1 t₂ hne₂)
    · exact absurd h₁ ((h.pages_own hs (Finset.mem_union_left _ h₂)).1 t₁ hne₁)
    · exact h.pagesApart t₁ t₂ v h₁ h₂
  -- live allocations keep their pages, and a new one has those of the call
  · rcases hlive a ha with hold | ⟨-, hnew⟩
    · obtain ⟨ht, h0⟩ := h.live a hold v hv
      refine ⟨e.taken v (fun hsec => ?_) ht, h0⟩
      refine Finset.disjoint_left.mp (h.liveApart a hold t) hv ?_
      rw [hs]
      exact hsec
    · obtain ⟨ht, h0, -⟩ := e.pages v (Finset.mem_union_right _ (hnew ▸ hv))
      exact ⟨ht, h0⟩
  · refine Finset.disjoint_left.mpr fun v hv hmem => ?_
    rw [after_threads] at hmem
    rcases hlive a ha with hold | ⟨-, hnew⟩
    · split at hmem
      · exact (h.pages_own hs (Finset.mem_union_left _ hmem)).2 a hold hv
      · exact Finset.disjoint_left.mp (h.liveApart a hold t') hv hmem
    -- the thread that returns an allocation works on no page any more
    · rw [hnew] at hv
      split at hmem
      · rw [Section.next_pages (Finset.ne_empty_of_mem hv)] at hmem
        exact Finset.notMem_empty v hmem
      · next hne => exact (h.pages_own hs (Finset.mem_union_right _ hv)).1 t' hne hmem
  · unfold State.after
    dsimp only
    split
    · next A hA =>
      refine List.pairwise_cons.mpr ⟨fun b hb => ?_, h.liveOnce⟩
      refine Finset.disjoint_left.mpr fun v hv => (h.pages_own hs ?_).2 b hb
      rw [hA]
      exact Finset.mem_union_right _ hv
    · exact h.liveOnce
  -- a holder loses its frame only when the bit is cleared
  · unfold State.after at hf
    dsimp only at hf
    split at hf
    · exact absurd hf (by simp)
    next hrel =>
    split at hf
    · next hal => exact e.allocates f hal
    · rcases e.used f (h.holder f t' hf) with hu | hr
      · exact hu
      · exact absurd hr hrel

/-! ### The calls -/

/-- A thread outside `page_table_lock` is called, on pages of live allocations. -/
theorem Apart.call (h : Apart vm s) (hout : (s.threads t).inside = false) {th : Thread}
    {live : List (T × Finset ℕ)} (hin : th.inside = false) (hok : th.Ok vm)
    (hframes : th.frames = []) (hpages : ∀ v ∈ th.pages, ∃ a ∈ s.live, v ∈ a.2)
    (hlive : ∀ a ∈ live, ∀ v ∈ a.2, v ∉ th.pages ∧ ∃ b ∈ s.live, v ∈ b.2)
    (honce : live.Pairwise fun a b => Disjoint a.2 b.2) :
    Apart vm { s with threads := update s.threads t th, live := live } := by
  -- the pages come from live allocations, which no thread works on
  have hother : ∀ t', ∀ v ∈ th.pages, v ∉ (s.threads t').pages := by
    intro t' v hv hmem
    obtain ⟨a, ha, hva⟩ := hpages v hv
    exact Finset.disjoint_left.mp (h.liveApart a ha t') hva hmem
  refine
    { pageDir := h.pageDir
      isolated := h.isolated
      ok := fun t' => ?_
      frames := fun t' a ha => ?_
      framesOnce := fun t' => ?_
      framesApart := fun t₁ t₂ a h₁ h₂ => ?_
      pages := fun t' v hv => ?_
      pagesApart := fun t₁ t₂ v h₁ h₂ => ?_
      live := fun a ha v hv => ?_
      liveApart := fun a ha t' => ?_
      liveOnce := honce
      holder := h.holder
      lock := fun t' => ?_ }
  · dsimp only
    rw [update_apply]
    split
    · exact hok
    · exact h.ok t'
  · dsimp only at ha
    rw [update_apply] at ha
    split at ha
    · rw [hframes] at ha
      exact absurd ha List.not_mem_nil
    · exact h.frames t' a ha
  · dsimp only
    rw [update_apply]
    split
    · rw [hframes]
      exact List.nodup_nil
    · exact h.framesOnce t'
  · dsimp only at h₁ h₂
    rw [update_apply] at h₁ h₂
    split at h₁ <;> split at h₂
    · next heq₁ heq₂ => exact heq₁.trans heq₂.symm
    · exact absurd h₁ (by rw [hframes]; exact List.not_mem_nil)
    · exact absurd h₂ (by rw [hframes]; exact List.not_mem_nil)
    · exact h.framesApart t₁ t₂ a h₁ h₂
  · dsimp only at hv
    rw [update_apply] at hv
    split at hv
    · obtain ⟨a, ha, hva⟩ := hpages v hv
      exact h.live a ha v hva
    · exact h.pages t' v hv
  · dsimp only at h₁ h₂
    rw [update_apply] at h₁ h₂
    split at h₁ <;> split at h₂
    · next heq₁ heq₂ => exact heq₁.trans heq₂.symm
    · exact absurd h₂ (hother t₂ v h₁)
    · exact absurd h₁ (hother t₁ v h₂)
    · exact h.pagesApart t₁ t₂ v h₁ h₂
  · obtain ⟨-, b, hb, hvb⟩ := hlive a ha v hv
    exact h.live b hb v hvb
  · refine Finset.disjoint_left.mpr fun v hv hmem => ?_
    obtain ⟨hnot, b, hb, hvb⟩ := hlive a ha v hv
    dsimp only at hmem
    rw [update_apply] at hmem
    split at hmem
    · exact hnot hmem
    · exact Finset.disjoint_left.mp (h.liveApart b hb t') hvb hmem
  · dsimp only
    rw [update_apply]
    split
    · next htt =>
      rw [hin, ← h.lock t', htt, hout]
    · exact h.lock t'

theorem Apart.malloc (h : Apart vm s) (hout : (s.threads t).inside = false) {th : Thread}
    (hth : (∃ r, th = .returned r) ∨ ∃ n, th = .running (.setup n)) :
    Apart vm { s with threads := update s.threads t th } := by
  have hnone : th.inside = false ∧ th.Ok vm ∧ th.frames = [] ∧ th.pages = ∅ := by
    rcases hth with ⟨r, rfl⟩ | ⟨n, rfl⟩
    · exact ⟨rfl, trivial, rfl, rfl⟩
    · exact ⟨rfl, trivial, rfl, rfl⟩
  obtain ⟨hin, hok, hframes, hpages⟩ := hnone
  refine h.call hout hin hok hframes (fun v hv => ?_) (fun a ha v hv => ⟨?_, a, ha, hv⟩) h.liveOnce
  · rw [hpages] at hv
    exact absurd hv (Finset.notMem_empty v)
  · rw [hpages]
    exact Finset.notMem_empty v

/-- The pages that `n_free` is called on leave the live allocations. -/
theorem Apart.free (h : Apart vm s) (hout : (s.threads t).inside = false) {f : FreeCall}
    (hf : f.AtHead) (hown : s.Owns t f.pages) :
    Apart vm { s with
      threads := update s.threads t (.running (.lock f))
      live := s.live.map fun a => if a.1 = t then (t, a.2 \ f.pages) else a } := by
  have hsub : ∀ a : T × Finset ℕ, (if a.1 = t then (t, a.2 \ f.pages) else a).2 ⊆ a.2 := by
    intro a
    split
    · exact Finset.sdiff_subset
    · exact subset_rfl
  refine h.call hout rfl hf rfl (fun v hv => ?_) (fun a' ha' v hv => ?_) ?_
  · obtain ⟨a, ha, -, hva⟩ := hown.2 v hv
    exact ⟨a, ha, hva⟩
  · obtain ⟨a, ha, rfl⟩ := List.mem_map.mp ha'
    refine ⟨fun hvf => ?_, a, ha, hsub a hv⟩
    split at hv
    · exact (Finset.mem_sdiff.mp hv).2 hvf
    · next hat =>
      -- the page is in an allocation of the caller too
      obtain ⟨b, hb, hbt, hvb⟩ := hown.2 v hvf
      have hsymm : Std.Symm fun a b : T × Finset ℕ => Disjoint a.2 b.2 := ⟨fun _ _ hd => hd.symm⟩
      have hab : a ≠ b := fun hab => hat (hab ▸ hbt)
      exact Finset.disjoint_left.mp (h.liveOnce.forall ha hb hab) hv hvb
  · refine List.pairwise_map.mpr (h.liveOnce.imp fun {a b} hd => ?_)
    exact hd.mono (hsub a) (hsub b)

/-! ### Runs -/

/-- The memory, as `set_physical_mem` would leave it before the first call. -/
def State.memoryOr (heap : Bytes) (s : State T) : Vm := s.mem.getD (setPhysicalMem heap)

omit [DecidableEq T] in
theorem State.memory_eq (h : s.memory heap sec = some vm) : vm = s.memoryOr heap := by
  unfold State.memory at h
  split at h
  · exact (Option.some.inj h).symm
  · rw [State.memoryOr, h, Option.getD_some]

omit [DecidableEq T] in
theorem Apart.start (heap : Bytes) : Apart (setPhysicalMem heap) (.start : State T) where
  pageDir := (setPhysicalMem_spec heap).1
  isolated := (setPhysicalMem_inv heap).wf.toIsolated
  ok _ := trivial
  frames _ a ha := absurd ha List.not_mem_nil
  framesOnce _ := List.nodup_nil
  framesApart _ _ a ha := absurd ha List.not_mem_nil
  pages _ v hv := absurd hv (Finset.notMem_empty v)
  pagesApart _ _ v hv := absurd hv (Finset.notMem_empty v)
  live a ha := absurd ha List.not_mem_nil
  liveApart a ha := absurd ha List.not_mem_nil
  liveOnce := .nil
  holder f t hf := absurd hf (by simp [State.start])
  lock t := iff_of_false (by simp [State.start, Thread.inside]) (by simp [State.start])

/-- What a step does: a thread outside the library calls `n_malloc`, or `n_free` on pages of its
own, or a thread performs its next section. -/
theorem State.step_cases {l : Move T} {s' : State T} (hs : s.step heap l = some s') :
    (∃ t numBytes th, l = .malloc t numBytes ∧ (s.threads t).inside = false ∧
      ((∃ r, th = .returned r) ∨ ∃ n, th = .running (.setup n)) ∧
      s' = { s with threads := update s.threads t th }) ∨
    (∃ t va size f, l = .free t va size ∧ (s.threads t).inside = false ∧ f.AtHead ∧
      s.Owns t f.pages ∧
      s' = { s with
        threads := update s.threads t (.running (.lock f))
        live := s.live.map fun a => if a.1 = t then (t, a.2 \ f.pages) else a }) ∨
    ∃ t sec vm, l = .run t ∧ s.threads t = .running sec ∧
      (sec.locks = true → s.pageTableLock = none) ∧ s.memory heap sec = some vm ∧
      s' = s.after t sec vm := by
  cases l with
  | malloc t numBytes =>
    dsimp only [State.step] at hs
    rcases hth : s.threads t with _ | sec | r
    case running => rw [hth] at hs; exact absurd hs (by simp)
    all_goals
      rw [hth] at hs
      refine .inl ⟨t, numBytes, _, rfl, by rw [hth]; rfl, ?_, (Option.some.inj hs).symm⟩
      -- `n_malloc(0)` returns at once
      by_cases h0 : numBytes = 0
      · rw [if_pos h0]
        exact .inl ⟨_, rfl⟩
      · rw [if_neg h0]
        exact .inr ⟨_, rfl⟩
  | free t va size =>
    set f : FreeCall := ⟨va.toNat, roundUpPages (u32 size.toInt), 0, .void⟩ with hf
    have hhead : f.AtHead := by
      refine ⟨Nat.zero_le _, ?_⟩
      simp only [hf, roundUpPages, numVirtPages, maxMemSize, pgSize]
      omega
    dsimp only [State.step] at hs
    rw [← hf] at hs
    rcases hth : s.threads t with _ | sec | r
    case running => rw [hth] at hs; exact absurd hs (by simp)
    all_goals
      rw [hth] at hs
      dsimp only at hs
      by_cases hown : s.Owns t f.pages
      · rw [if_pos hown] at hs
        exact .inr (.inl ⟨t, va, size, f, rfl, by rw [hth]; rfl, hhead, hown,
          (Option.some.inj hs).symm⟩)
      · rw [if_neg hown] at hs
        exact absurd hs (by simp)
  | run t =>
    dsimp only [State.step] at hs
    rcases hth : s.threads t with _ | sec | r
    case idle => rw [hth] at hs; exact absurd hs (by simp)
    case returned => rw [hth] at hs; exact absurd hs (by simp)
    rw [hth] at hs
    dsimp only at hs
    by_cases hlock : sec.locks = true ∧ s.pageTableLock.isSome = true
    · rw [if_pos hlock] at hs
      exact absurd hs (by simp)
    · rw [if_neg hlock] at hs
      obtain ⟨vm, hmem, heq⟩ := Option.map_eq_some_iff.mp hs
      refine .inr (.inr ⟨t, sec, vm, rfl, hth, fun hlocks => ?_, hmem, heq.symm⟩)
      exact Option.not_isSome_iff_eq_none.mp fun hsome => hlock ⟨hlocks, hsome⟩

/-- A step keeps the threads apart. -/
theorem Apart.step (h : Apart (s.memoryOr heap) s) {l : Move T} {s' : State T}
    (hs : s.step heap l = some s') (hl : Undisturbed s l) : Apart (s'.memoryOr heap) s' := by
  rcases State.step_cases hs with ⟨t, numBytes, th, rfl, hout, hth, rfl⟩ |
    ⟨t, va, size, f, rfl, hout, hf, hown, rfl⟩ | ⟨t, sec, vm, rfl, hth, hfree, hmem, rfl⟩
  · exact h.malloc hout hth
  · exact h.free hout hf hown
  · obtain rfl := State.memory_eq hmem
    refine h.after hth hfree fun t' fr pde byte hne ht' => ?_
    -- the thread that is about to store is inside, so `t` is not
    have hin : sec.inside = false := h.outside hth hne (by rw [ht']; rfl)
    rcases (h.ready hth).effect.bitmap hin with hsame | ⟨m, f, rfl, hclear, hbelow, hset⟩
    · rw [hsame]
    · have hapart := hl m _ f hth hmem hclear hbelow t' fr pde byte ht'
      rw [hset]
      exact if_neg hapart.symm

theorem apart_of_run {ls : List (Move T)}
    (hr : Run ((allocator T heap).restrict Undisturbed) ls s) : Apart (s.memoryOr heap) s := by
  refine hr.invariant (I := fun s => Apart (s.memoryOr heap) s) ?_ ?_
  · rintro s rfl
    exact .start heap
  · intro s l s' h hs
    exact h.step hs.1 hs.2

omit [DecidableEq T] in
/-- The frame that `allocate_phys_page` returns was free. -/
theorem Section.allocates_unused {f : ℕ} (h : sec.allocates vm = some f) :
    f < numPhysPages ∧ vm.space.used f = false := by
  have hal : (allocatePhysPage vm).map (fun x => x.1 / pgSize) = some f := by
    cases sec with
    | allocPage m => exact h
    | allocTable m pa => exact h
    | _ => exact absurd h (by simp [Section.allocates])
  obtain ⟨hnone, -⟩ | ⟨g, hg, hsome, ha⟩ := Vm.space_allocatePhysPage vm
  · rw [hnone] at hal
    exact absurd hal (by simp)
  · rw [hsome, Option.map_some, Nat.mul_div_cancel _ (by decide)] at hal
    obtain rfl := Option.some.inj hal
    obtain ⟨g', -, heq, hu, -⟩ := Space.alloc_eq_some ha
    obtain rfl : g = g' := by omega
    exact ⟨hg, hu⟩

omit [DecidableEq T] in
theorem Apart.neverTwice (h : Apart (s.memoryOr heap) s) : NeverTwice s where
  frame t sec vm f _ hmem hf := by
    have hvm : s.memoryOr heap = vm := by rw [State.memoryOr, hmem, Option.getD_some]
    rw [hvm] at h
    obtain ⟨hlt, hu⟩ := Section.allocates_unused hf
    have hr := h.isolated.unref_of_unused hlt hu
    refine ⟨hr.page, hr.dir, fun t' _ hh => ?_⟩
    rw [h.holder f t' hh] at hu
    exact absurd hu (by decide)
  live := h.liveOnce

/-- What `n_free` is about to store into `phys_bitmap` undoes nothing. -/
def State.UpToDate (s : State T) : Prop :=
  ∀ t fr pde byte vm, s.threads t = .running (.storeByte fr pde byte) → s.mem = some vm →
    byte = vm.physBitmap ((pde >>> pfnShift) / 8)

omit [DecidableEq T] in
theorem Apart.upToDate (h : Apart (s.memoryOr heap) s) : s.UpToDate := by
  intro t fr pde byte vm ht hmem
  have hok := h.ok t
  rw [ht, State.memoryOr, hmem] at hok
  exact hok.2

omit [DecidableEq T] in
/-- The frame that `allocate_phys_page` takes is the first with a clear bit. -/
theorem allocatePhysPage_first {f : ℕ} (hf : f < numPhysPages) (hclear : getBit vm.physBitmap f = 0)
    (hbelow : ∀ g < f, getBit vm.physBitmap g = 1) :
    allocatePhysPage vm = some (f * 4096, vm.setPhysBit f) := by
  have hunused : vm.space.used f = false := Vm.getBit_eq_zero.mp hclear
  obtain ⟨-, hnone⟩ | ⟨g, -, hsome, ha⟩ := Vm.space_allocatePhysPage vm
  · rw [Space.alloc_eq_none.mp hnone f hf] at hunused
    exact absurd hunused (by decide)
  · obtain ⟨g', -, heq, hg, hmin, -⟩ := Space.alloc_eq_some ha
    obtain rfl : g = g' := by omega
    rcases lt_trichotomy f g with hlt | rfl | hgt
    · rw [hmin f hlt] at hunused
      exact absurd hunused (by decide)
    · exact hsome
    · have hused : vm.space.used g = true := Vm.getBit_eq_one.mp (hbelow g hgt)
      rw [hg] at hused
      exact absurd hused (by decide)

/-- An allocation in the byte that another thread has loaded leaves that thread a stale byte. -/
theorem Apart.undisturbed (h : Apart (s.memoryOr heap) s) {l : Move T} {s' : State T}
    (hs : s.step heap l = some s') (hup : s'.UpToDate) : Undisturbed s l := by
  cases l with
  | malloc t numBytes => trivial
  | free t va size => trivial
  | run t =>
    intro m vm f hth hmem hclear hbelow t' fr pde byte ht' hbytes
    have hvm : s.memoryOr heap = vm := by rw [State.memoryOr, hmem, Option.getD_some]
    rw [hvm] at h
    have hne : t' ≠ t := by
      rintro rfl
      rw [hth] at ht'
      exact absurd ht' (by simp)
    -- the frame of the page table lies in memory, so its whole byte of the bitmap does
    obtain ⟨hr, -⟩ : vm.space.Reserved pde :=
      h.frames t' pde (by rw [ht']; exact List.mem_singleton_self _)
    have hf : f < numPhysPages := by
      have hlt := hr.frame.2
      rw [show pde >>> pfnShift = pde / 4096 from shiftRight_12 pde] at hbytes
      simp only [numPhysPages, memSize, pgSize] at hlt ⊢
      omega
    have hok := h.ok t'
    rw [ht'] at hok
    have hold : byte = vm.physBitmap ((pde >>> pfnShift) / 8) := hok.2
    have hs' : s' = s.after t (.allocPage m) vm := by
      rcases State.step_cases hs with ⟨_, _, _, he, -⟩ | ⟨_, _, _, _, he, -⟩ |
        ⟨_, sec, vm', he, hsec, -, hmem', hs'⟩
      · exact absurd he (by simp)
      · exact absurd he (by simp)
      · obtain rfl := Move.run.inj he
        obtain rfl := Thread.running.inj (hth.symm.trans hsec)
        obtain rfl : vm = vm' := Option.some.inj (hmem.symm.trans hmem')
        exact hs'
    subst hs'
    have hnew : byte = (setBit vm.physBitmap f) ((pde >>> pfnShift) / 8) := by
      refine hup t' fr pde byte (vm.setPhysBit f) ?_ ?_
      · rw [after_threads, if_neg hne, ht']
      · unfold State.after Section.next
        rw [allocatePhysPage_first hf hclear hbelow]
    have hbit : bit (setBit vm.physBitmap f) f = bit vm.physBitmap f := by
      unfold bit
      rw [hbytes, ← hnew, ← hold]
    rw [bit_setBit, update_self, Vm.getBit_eq_zero.mp hclear] at hbit
    exact absurd hbit (by decide)

/-- **Concurrent allocation hands out nothing twice** in every interleaving in which no
`allocate_phys_page` sets a bit in a byte that `n_free` has loaded and not yet stored, and the
next step leaves every such byte up to date exactly when it does not either. -/
theorem frames_handed_out_once (heap : Bytes) {ls : List (Move T)}
    (hr : Run ((allocator T heap).restrict Undisturbed) ls s) :
    NeverTwice s ∧ s.UpToDate ∧
      ∀ l s', s.step heap l = some s' → (s'.UpToDate ↔ Undisturbed s l) := by
  have h := apart_of_run hr
  exact ⟨h.neverTwice, h.upToDate, fun l s' hs =>
    ⟨h.undisturbed hs, fun hl => (h.step hs hl).upToDate⟩⟩

/-- The thread has loaded a byte of `phys_bitmap` that it has not stored. -/
def Thread.stores : Thread → Bool
  | .running (.storeByte _ _ _) => true
  | _ => false

omit [DecidableEq T] in
theorem undisturbed_of_stores (h : ∀ t, (s.threads t).stores = false) (l : Move T) :
    Undisturbed s l := by
  cases l with
  | malloc t numBytes => trivial
  | free t va size => trivial
  | run t =>
    intro m vm f _ _ _ _ t' fr pde byte ht'
    have hst := h t'
    rw [ht'] at hst
    exact absurd hst (by simp [Thread.stores])

/-- Two threads allocate one page each. -/
def twoAllocations : List (Move Bool) :=
  .malloc false 1 :: List.replicate 10 (.run false) ++
    .malloc true 1 :: List.replicate 8 (.run true)

theorem frames_handed_out_once_two : ∃ s : State Bool,
    s.live = [(true, {2}), (false, {1})] ∧ s.holder 1 = some false ∧ s.holder 3 = some true ∧
      NeverTwice s := by
  have hrun : ((steps (stepIf (fun s _ => ∀ t, (s.threads t).stores = false)
      (State.step fun _ => 0)) .start twoAllocations).any fun s =>
        decide (s.live = [(true, {2}), (false, {1})] ∧ s.holder 1 = some false ∧
          s.holder 3 = some true)) = true := by decide +kernel
  obtain ⟨s, hs, hp⟩ := (Option.any_eq_true _ _).mp hrun
  obtain ⟨hlive, h1, h3⟩ := of_decide_eq_true hp
  have hsolo : Run ((allocator Bool fun _ => 0).restrict
      fun s _ => ∀ t, (s.threads t).stores = false) twoAllocations s :=
    Run.stepsIf (fun _ _ _ h => h) rfl hs
  have hr := hsolo.restrict_mono fun _ l h => undisturbed_of_stores h l
  exact ⟨s, hlive, h1, h3, (frames_handed_out_once (fun _ => 0) hr).1⟩

/-- The frame that the thread is about to get. -/
def State.nextFrame (s : State T) (t : T) : Option ℕ :=
  match s.threads t, s.mem with
  | .running sec, some vm => sec.allocates vm
  | _, _ => none

omit [DecidableEq T] in
theorem NeverTwice.holder_ne (h : NeverTwice s) {f : ℕ} (hf : s.nextFrame t = some f) {t' : T}
    (hne : t' ≠ t) : s.holder f ≠ some t' := by
  unfold State.nextFrame at hf
  split at hf
  · next sec vm hth hmem => exact (h.frame t sec vm f hth hmem hf).2.2 t' hne
  · exact absurd hf (by simp)

/-- One thread frees its only page and has loaded the byte of `phys_bitmap` with the bit of the
page table when the other allocates frame `1`. The store loses that bit. -/
def lostBit : List (Move Bool) :=
  .malloc false 1 :: List.replicate 10 (.run false) ++
    .free false 4096 1 :: List.replicate 7 (.run false) ++
    .malloc true 1 :: List.replicate 3 (.run true) ++
    List.replicate 3 (.run false) ++ .malloc false 1 :: List.replicate 2 (.run false)

set_option maxRecDepth 10000 in
theorem frame_handed_out_twice : ∃ s : State Bool,
    Run (allocator Bool fun _ => 0) lostBit s ∧ s.nextFrame false = some 1 ∧
      s.holder 1 = some true ∧ ¬ NeverTwice s := by
  have hrun : ((steps (State.step fun _ => 0) .start lostBit).any fun s =>
      decide (s.nextFrame false = some 1 ∧ s.holder 1 = some true)) = true := by decide +kernel
  obtain ⟨s, hs, hp⟩ := (Option.any_eq_true _ _).mp hrun
  obtain ⟨hnext, hholder⟩ := of_decide_eq_true hp
  have hr : Run (allocator Bool fun _ => 0) lostBit s :=
    (Run.start (show (allocator Bool fun _ => 0).init _ from rfl)).steps (fun _ _ _ h => h) hs
  exact ⟨s, hr, hnext, hholder, fun h => h.holder_ne hnext (by decide) hholder⟩

end

end Allocator

end MyVm
