import Cs416.Vm.ConcurrentAllocation

/-!
# What a section does

Between two sections of a call a frame that is marked used belongs to a mapped page, to a page
table, or to the one thread that has it in its locals (`Section.frames`), and a page that is
marked taken is likewise the thread's own (`Section.pages`). A section that runs on what it relies
on (`Ready`) changes only what is its own and leaves the next section ready (`Effect`).
-/

open ByteMem FlatMem Lts Function

namespace MyVm

/-! ### Address spaces between two sections -/

namespace Space

variable {s : Space} {v : ℕ}

theorem Isolated.take (h : s.Isolated) (b n : ℕ) : (s.take b n).Isolated :=
  { h with
    page_taken := fun w hw => by
      simp only [Space.take, h.page_taken w hw, Bool.or_true] }

/-- Zeroing the entry of a page that stays taken. -/
theorem Isolated.zeroEntry (h : s.Isolated) (v : ℕ) :
    Isolated { s with page := update s.page v 0 } :=
  { h.zeroPage v with
    page_taken := fun w hw => by
      dsimp only at hw
      by_cases hwv : w = v
      · rw [hwv, update_self] at hw
        exact absurd rfl hw
      · rw [update_of_ne hwv] at hw
        exact h.page_taken w hw }

/-- Giving up a page that is not mapped. -/
theorem Isolated.untake (h : s.Isolated) (hv : s.page v = 0) :
    Isolated { s with taken := update s.taken v false } :=
  { h with
    page_taken := fun w hw => by
      dsimp only at hw ⊢
      rw [update_of_ne]
      · exact h.page_taken w hw
      · rintro rfl
        exact hw hv }

/-- A frame that is marked used and that nothing references. -/
def Reserved (s : Space) (a : ℕ) : Prop := s.Unref a ∧ s.used (a / 4096) = true

end Space

namespace Allocator

/-! ### What a thread relies on -/

namespace MallocCall

/-- `curr_va >> PFN_SHIFT`. -/
def page (m : MallocCall) : ℕ := m.baseVa / pgSize + m.i

/-- The allocation lies in the address space, and page `i` is the next one. -/
structure InLoop (m : MallocCall) : Prop where
  aligned : m.baseVa % pgSize = 0
  pos : 1 ≤ m.baseVa / pgSize
  fits : m.baseVa / pgSize + m.numPages ≤ numVirtPages
  lt : m.i < m.numPages

variable {m : MallocCall}

theorem InLoop.va_div (h : m.InLoop) : m.va / 4096 = m.page := by
  obtain ⟨ha, -, hf, hi⟩ := h
  simp only [MallocCall.va, MallocCall.page, numVirtPages, maxMemSize, pgSize] at *
  omega

theorem va_lt (m : MallocCall) : m.va < 2 ^ 32 := Nat.mod_lt _ (by decide)

theorem InLoop.page_mem (h : m.InLoop) : m.page ∈ m.pages :=
  Finset.mem_Ico.mpr ⟨Nat.le_add_right _ _, Nat.add_lt_add_left h.lt _⟩

theorem InLoop.page_lt (h : m.InLoop) : m.page / 1024 < 1024 := by
  obtain ⟨-, -, hf, hi⟩ := h
  simp only [MallocCall.page, numVirtPages, maxMemSize, pgSize] at *
  omega

end MallocCall

namespace FreeCall

/-- `va_u >> PFN_SHIFT`. -/
def page (f : FreeCall) : ℕ := (f.startVa / pgSize + f.i) % numVirtPages

/-- The head of the loop, which visits no page twice. -/
structure AtHead (f : FreeCall) : Prop where
  le : f.i ≤ f.numPages
  once : f.numPages ≤ numVirtPages

/-- The body of the loop. -/
structure InLoop (f : FreeCall) : Prop where
  lt : f.i < f.numPages
  once : f.numPages ≤ numVirtPages

variable {f : FreeCall}

theorem va_lt (f : FreeCall) : f.va < 2 ^ 32 := Nat.mod_lt _ (by decide)

theorem va_div (f : FreeCall) : f.va / 4096 = f.page := by
  simp only [FreeCall.va, FreeCall.page, numVirtPages, maxMemSize, pgSize]
  omega

theorem InLoop.page_mem (h : f.InLoop) : f.page ∈ f.pages :=
  Finset.mem_image.mpr ⟨f.i, Finset.mem_Ico.mpr ⟨le_rfl, h.lt⟩, rfl⟩

theorem InLoop.advance (h : f.InLoop) : f.advance.AtHead := ⟨h.lt, h.once⟩

theorem advance_pages_subset (f : FreeCall) : f.advance.pages ⊆ f.pages := by
  refine Finset.image_subset_image fun k hk => ?_
  rw [Finset.mem_Ico] at hk ⊢
  simp only [FreeCall.advance] at hk
  omega

/-- The page of this iteration is not visited again. -/
theorem InLoop.page_notMem (h : f.InLoop) : f.page ∉ f.advance.pages := by
  intro hmem
  obtain ⟨k, hk, hkp⟩ := Finset.mem_image.mp hmem
  obtain ⟨hlt, honce⟩ := h
  rw [Finset.mem_Ico] at hk
  simp only [FreeCall.advance, page, numVirtPages, maxMemSize, pgSize] at *
  omega

end FreeCall

namespace Section

/-- The frames that only this thread knows of, by their addresses. -/
def frames : Section → List ℕ
  | .lockTable _ pa | .allocTable _ pa | .setEntry _ pa _ => [pa]
  | .newTable _ pa newTablePa => [pa, newTablePa]
  | .clearPhys _ _ pte => [pte]
  | .loadByte _ pde | .storeByte _ pde _ => [pde]
  | _ => []

/-- The virtual pages the call works on. -/
def pages : Section → Finset ℕ
  | .setup _ | .reserve _ => ∅
  | .allocPage m | .lockTable m _ | .allocTable m _ | .newTable m _ _ | .setEntry m _ _ => m.pages
  | .markPhys m _ | .markVirt m _ | .addTlb m _ => m.pages
  | .lock f | .unmap f | .clearPhys f _ _ | .clearVirt f _ => f.pages
  | .invalidate f _ | .checkTable f _ | .loadByte f _ | .storeByte f _ _ => f.advance.pages
  | .zeroTable f _ => f.advance.pages

/-- What the section relies on. -/
def Ok (vm : Vm) : Section → Prop
  | .setup _ => True
  | .reserve numPages => 0 < numPages
  | .allocPage m | .lockTable m _ | .markVirt m _ | .addTlb m _ => m.InLoop
  | .allocTable m _ | .newTable m _ _ => m.InLoop ∧ vm.space.dir (m.page / 1024) = 0
  | .setEntry m _ pde => m.InLoop ∧ vm.space.dir (m.page / 1024) = pde ∧ pde ≠ 0
  | .markPhys m pa => m.InLoop ∧ vm.space.page m.page = pa ∧ pa ≠ 0
  | .lock f | .unmap f => f.AtHead
  | .clearPhys f pde _ | .clearVirt f pde =>
    f.InLoop ∧ vm.space.page f.page = 0 ∧ vm.space.dir (f.page / 1024) = pde ∧ pde ≠ 0
  | .invalidate f pde | .checkTable f pde =>
    f.InLoop ∧ vm.space.dir (f.page / 1024) = pde ∧ pde ≠ 0
  | .loadByte f _ => f.InLoop
  | .storeByte f pde byte => f.InLoop ∧ byte = vm.physBitmap ((pde >>> pfnShift) / 8)
  | .zeroTable f pde => f.InLoop ∧ IsFrame pde ∧ pde ≠ 0 ∧ ∀ i, vm.space.dir i ≠ pde

/-- A section releases a frame it holds. -/
theorem releases_frames {sec : Section} {f : ℕ} (h : sec.releases = some f) :
    ∃ a ∈ sec.frames, a / 4096 = f := by
  cases sec with
  | clearPhys fr pde pte =>
    obtain rfl := Option.some.inj h
    exact ⟨pte, List.mem_singleton_self _, (shiftRight_12 pte).symm⟩
  | storeByte fr pde byte =>
    obtain rfl := Option.some.inj h
    exact ⟨pde, List.mem_singleton_self _, (shiftRight_12 pde).symm⟩
  | _ => exact absurd h (by simp [releases])

end Section

namespace Thread

def frames : Thread → List ℕ
  | .running sec => sec.frames
  | _ => []

def pages : Thread → Finset ℕ
  | .running sec => sec.pages
  | _ => ∅

def Ok (vm : Vm) : Thread → Prop
  | .running sec => sec.Ok vm
  | _ => True

end Thread

/-- What a section does, as far as the other threads are concerned. -/
structure Effect (vm : Vm) (sec : Section) (vm' : Vm) (th : Thread) : Prop where
  pageDir : vm'.pageDir = 0
  isolated : vm'.space.Isolated
  ok : th.Ok vm'
  /-- The directory and the tables change under `page_table_lock` only. -/
  tables : sec.inside = false →
    vm'.space.dir = vm.space.dir ∧ vm'.space.page = vm.space.page
  page : ∀ v, v ∉ sec.pages → vm'.space.page v = vm.space.page v
  /-- A frame that gets referenced was the thread's own. -/
  unref : ∀ a, vm.space.Unref a → a ∉ sec.frames → vm'.space.Unref a
  used : ∀ f, vm.space.used f = true → vm'.space.used f = true ∨ sec.releases = some f
  /-- A frame the thread has now it had before, or nobody did. -/
  frames : ∀ a ∈ th.frames, vm'.space.Reserved a ∧ (a ∈ sec.frames ∨ ¬ vm.space.Reserved a)
  framesOnce : th.frames.Nodup
  taken : ∀ v, v ∉ sec.pages → vm.space.taken v = true → vm'.space.taken v = true
  pages : ∀ v ∈ th.pages ∪ sec.grants.getD ∅,
    vm'.space.taken v = true ∧ v ≠ 0 ∧ (v ∈ sec.pages ∨ vm.space.taken v = false)
  /-- Without `page_table_lock`, a byte of `phys_bitmap` changes by an allocation only. -/
  bitmap : sec.inside = false → vm'.physBitmap = vm.physBitmap ∨
    ∃ m f, sec = .allocPage m ∧ getBit vm.physBitmap f = 0 ∧
      (∀ g < f, getBit vm.physBitmap g = 1) ∧ vm'.physBitmap = setBit vm.physBitmap f
  allocates : ∀ f, sec.allocates vm = some f → vm'.space.used f = true

/-- The state a section begins in. -/
structure Ready (vm : Vm) (sec : Section) : Prop where
  pageDir : vm.pageDir = 0
  isolated : vm.space.Isolated
  ok : sec.Ok vm
  frames : ∀ a ∈ sec.frames, vm.space.Reserved a
  framesOnce : sec.frames.Nodup
  pages : ∀ v ∈ sec.pages, vm.space.taken v = true ∧ v ≠ 0

section

variable {vm vm' : Vm} {sec : Section} {th : Thread} {m : MallocCall} {f : FreeCall}
  {n pa pde pte : ℕ}

/-! ### Sections that leave the address space alone -/

theorem Ready.same (h : Ready vm sec) (hdir : vm'.pageDir = vm.pageDir)
    (hspace : vm'.space = vm.space) (hok : th.Ok vm') (hframes : th.frames.Sublist sec.frames)
    (hpages : th.pages ⊆ sec.pages) (hgrants : sec.grants.getD ∅ ⊆ sec.pages)
    (halloc : sec.allocates vm = none) : Effect vm sec vm' th where
  pageDir := hdir.trans h.pageDir
  isolated := hspace ▸ h.isolated
  ok := hok
  tables _ := by rw [hspace]; exact ⟨rfl, rfl⟩
  page _ _ := by rw [hspace]
  unref _ hr _ := hspace ▸ hr
  used _ hu := .inl (hspace ▸ hu)
  frames a ha := by
    have hsec := hframes.subset ha
    exact ⟨hspace ▸ h.frames a hsec, .inl hsec⟩
  framesOnce := h.framesOnce.sublist hframes
  taken _ _ ht := hspace ▸ ht
  pages v hv := by
    have hsec : v ∈ sec.pages := Finset.union_subset hpages hgrants hv
    rw [hspace]
    exact ⟨(h.pages v hsec).1, (h.pages v hsec).2, .inl hsec⟩
  bitmap _ := .inl (eq_of_bit_eq (congrArg Space.used hspace))
  allocates f hf := absurd (halloc.symm.trans hf) (by simp)

theorem setup_effect (h : Ready vm (.setup n)) :
    Effect vm (.setup n) vm ((Section.setup n).next vm).2 := by
  dsimp only [Section.next]
  split
  · exact h.same rfl rfl trivial (.refl _) subset_rfl (Finset.empty_subset _) rfl
  · next hn =>
    exact h.same rfl rfl (Nat.pos_of_ne_zero hn) (.refl _) subset_rfl (Finset.empty_subset _) rfl

theorem lockTable_effect (h : Ready vm (.lockTable m pa)) :
    Effect vm (.lockTable m pa) vm ((Section.lockTable m pa).next vm).2 := by
  have hm : m.InLoop := h.ok
  have hpde : vm.loadPde vm.pageDir (pdx m.va) = vm.space.dir (m.page / 1024) := by
    rw [Vm.loadPde_eq m.va_lt, hm.va_div]
  dsimp only [Section.next]
  rw [hpde]
  split
  · next hd =>
    exact h.same rfl rfl ⟨hm, hd⟩ (.refl _) subset_rfl (Finset.empty_subset _) rfl
  · next hd =>
    exact h.same rfl rfl ⟨hm, rfl, hd⟩ (.refl _) subset_rfl (Finset.empty_subset _) rfl

/-- The frame of a mapped page is marked already. -/
theorem markPhys_effect (h : Ready vm (.markPhys m pa)) :
    Effect vm (.markPhys m pa) (vm.setPhysBit (pa >>> pfnShift)) (.running (.markVirt m pa)) := by
  obtain ⟨hm, hpage, hpa⟩ : m.InLoop ∧ vm.space.page m.page = pa ∧ pa ≠ 0 := h.ok
  have hspace : (vm.setPhysBit (pa >>> pfnShift)).space = vm.space := by
    refine Space.ext rfl rfl ?_ rfl
    change bit (setBit vm.physBitmap (pa >>> 12)) = _
    rw [bit_setBit, shiftRight_12]
    refine Space.update_true_eq_self ?_
    rw [← hpage]
    exact (h.isolated.page_frame _ (hpage ▸ hpa)).2
  exact h.same rfl hspace hm (.refl _) subset_rfl (Finset.empty_subset _) rfl

/-- The page has been marked by `get_next_avail`. -/
theorem markVirt_effect (h : Ready vm (.markVirt m pa)) :
    Effect vm (.markVirt m pa) (vm.setVirtBit (m.va >>> pfnShift)) (.running (.addTlb m pa)) := by
  have hm : m.InLoop := h.ok
  have hspace : (vm.setVirtBit (m.va >>> pfnShift)).space = vm.space := by
    refine Space.ext rfl rfl rfl ?_
    change bit (setBit vm.virtBitmap (m.va >>> 12)) = _
    rw [bit_setBit, shiftRight_12, hm.va_div]
    exact Space.update_true_eq_self (h.pages _ hm.page_mem).1
  exact h.same rfl hspace hm (.refl _) subset_rfl (Finset.empty_subset _) rfl

theorem addTlb_effect (h : Ready vm (.addTlb m pa)) :
    Effect vm (.addTlb m pa) ((Section.addTlb m pa).next vm).1
      ((Section.addTlb m pa).next vm).2 := by
  have hm : m.InLoop := h.ok
  have hgrants : (Section.addTlb m pa).grants.getD ∅ ⊆ m.pages := by
    unfold Section.grants
    dsimp only
    split
    · exact subset_rfl
    · exact Finset.empty_subset _
  dsimp only [Section.next, MallocCall.loop]
  split
  · exact h.same rfl rfl trivial (List.nil_sublist _) (Finset.empty_subset _) hgrants rfl
  · next hi =>
    have hnext : m.advance.InLoop :=
      ⟨hm.aligned, hm.pos, hm.fits, lt_of_le_of_ne hm.lt hi⟩
    exact h.same rfl rfl hnext (.refl _) subset_rfl hgrants rfl

theorem lock_effect (h : Ready vm (.lock f)) : Effect vm (.lock f) vm (.running (.unmap f)) :=
  h.same rfl rfl h.ok (.refl _) subset_rfl (Finset.empty_subset _) rfl

theorem invalidate_effect (h : Ready vm (.invalidate f pde)) :
    Effect vm (.invalidate f pde) (vm.invalidateTlb f.va) (.running (.checkTable f pde)) :=
  h.same rfl rfl h.ok (.refl _) subset_rfl (Finset.empty_subset _) rfl

theorem loadByte_effect (h : Ready vm (.loadByte f pde)) :
    Effect vm (.loadByte f pde) vm
      (.running (.storeByte f pde (vm.physBitmap ((pde >>> pfnShift) / 8)))) :=
  h.same rfl rfl ⟨h.ok, rfl⟩ (.refl _) subset_rfl (Finset.empty_subset _) rfl

theorem zeroTable_effect (h : Ready vm (.zeroTable f pde)) :
    Effect vm (.zeroTable f pde) (vm.zeroPage pde) (.running (.unmap f.advance)) := by
  obtain ⟨hloop, hf, hpos, hd⟩ : f.InLoop ∧ IsFrame pde ∧ pde ≠ 0 ∧ ∀ i, vm.space.dir i ≠ pde :=
    h.ok
  exact h.same rfl (Vm.space_zeroPage h.pageDir h.isolated hf hpos hd) hloop.advance (.refl _)
    subset_rfl (Finset.empty_subset _) rfl

/-! ### Allocations -/

/-- A failed `n_malloc` frees pages of its own. -/
theorem MallocCall.InLoop.failed (h : m.InLoop) (vm : Vm) :
    m.failed.Ok vm ∧ m.failed.frames = [] ∧ m.failed.pages ⊆ m.pages := by
  obtain ⟨ha, hb, hf, hi⟩ := h
  have hcount : roundUpPages (u32 (toInt (m.i * pgSize))) = m.i :=
    Vm.roundUpPages_toInt (by omega)
  unfold MallocCall.failed
  rw [hcount]
  refine ⟨?_, rfl, fun v hv => ?_⟩
  · exact ⟨Nat.zero_le _, by dsimp only; omega⟩
  · obtain ⟨k, hk, rfl⟩ := Finset.mem_image.mp hv
    rw [Finset.mem_Ico] at hk
    dsimp only at hk ⊢
    rw [Nat.mod_eq_of_lt (by omega)]
    exact Finset.mem_Ico.mpr ⟨Nat.le_add_right _ _, by omega⟩

/-- A frame is taken out of `phys_bitmap`. -/
theorem Ready.allocated (h : Ready vm sec) {g : ℕ}
    (ha : vm.space.alloc = some (g * 4096, (vm.setPhysBit g).space))
    (hsec : sec.allocates vm = some g) (hin : sec.inside = true ∨ ∃ m, sec = .allocPage m)
    (hok : th.Ok (vm.setPhysBit g)) (hframes : th.frames = sec.frames ++ [g * 4096])
    (hpages : th.pages ⊆ sec.pages) (hgrants : sec.grants.getD ∅ ⊆ sec.pages) :
    Effect vm sec (vm.setPhysBit g) th := by
  obtain ⟨-, hunref, hused, hfree⟩ := h.isolated.alloc_unref ha
  obtain ⟨g', -, hg', hfirst, hbelow, hspace⟩ := Space.alloc_eq_some ha
  obtain rfl : g = g' := by omega
  -- the bit of `g` was clear, and it is the only one that changes
  have husedEq : (vm.setPhysBit g).space.used = update vm.space.used g true :=
    congrArg Space.used hspace
  have hmono : ∀ f, vm.space.used f = true → (vm.setPhysBit g).space.used f = true := by
    intro f hf
    rw [husedEq]
    exact Space.update_true_of_true hf
  refine ⟨h.pageDir, h.isolated.alloc ha, hok, fun _ => ⟨rfl, rfl⟩, fun _ _ => rfl,
    fun a hr _ => ⟨hr.frame, hr.pos, hr.dir, hr.page⟩, fun f hf => .inl (hmono f hf),
    fun a hmem => ?_, ?_, fun _ _ ht => ht, fun v hv => ?_, fun hout => .inr ?_, fun f hf => ?_⟩
  -- the thread's frames: the old ones, and `g`, which was reserved by nobody
  · rw [hframes] at hmem
    rcases List.mem_append.mp hmem with hmem | hmem
    · obtain ⟨hr, hu⟩ := h.frames a hmem
      exact ⟨⟨⟨hr.frame, hr.pos, hr.dir, hr.page⟩, hmono _ hu⟩, .inl hmem⟩
    · obtain rfl := List.mem_singleton.mp hmem
      refine ⟨⟨hunref, hused⟩, .inr fun hr => ?_⟩
      rw [hr.2] at hfree
      exact absurd hfree (by decide)
  · rw [hframes]
    refine List.nodup_append'.mpr ⟨h.framesOnce, List.nodup_singleton _, ?_⟩
    intro a hmem hsing
    obtain rfl := List.mem_singleton.mp hsing
    rw [(h.frames _ hmem).2] at hfree
    exact absurd hfree (by decide)
  · have hsec := Finset.union_subset hpages hgrants hv
    exact ⟨(h.pages v hsec).1, (h.pages v hsec).2, .inl hsec⟩
  -- the byte changes without `page_table_lock` only in the loop of `n_malloc`
  · rcases hin with hin | ⟨m, rfl⟩
    · rw [hout] at hin
      exact absurd hin (by decide)
    · refine ⟨m, g, rfl, ?_, fun k hk => ?_, rfl⟩
      · exact Vm.getBit_eq_zero.mpr hfirst
      · exact Vm.getBit_eq_one.mpr (hbelow k hk)
  · obtain rfl := Option.some.inj (hsec.symm.trans hf)
    rw [husedEq, update_self]

theorem allocPage_effect (h : Ready vm (.allocPage m)) :
    Effect vm (.allocPage m) ((Section.allocPage m).next vm).1
      ((Section.allocPage m).next vm).2 := by
  have hm : m.InLoop := h.ok
  dsimp only [Section.next]
  obtain ⟨hal, -⟩ | ⟨g, -, hal, ha⟩ := Vm.space_allocatePhysPage vm
  · obtain ⟨hok, hframes, hpages⟩ := hm.failed vm
    rw [hal]
    refine h.same rfl rfl hok (hframes ▸ .refl _) hpages (Finset.empty_subset _) ?_
    rw [Section.allocates, hal]
    rfl
  · rw [hal]
    refine h.allocated ha ?_ (.inr ⟨m, rfl⟩) hm rfl subset_rfl (Finset.empty_subset _)
    rw [Section.allocates, hal, Option.map_some, Nat.mul_div_cancel _ (by decide)]

theorem allocTable_effect (h : Ready vm (.allocTable m pa)) :
    Effect vm (.allocTable m pa) ((Section.allocTable m pa).next vm).1
      ((Section.allocTable m pa).next vm).2 := by
  obtain ⟨hm, hd⟩ : m.InLoop ∧ vm.space.dir (m.page / 1024) = 0 := h.ok
  dsimp only [Section.next]
  obtain ⟨hal, -⟩ | ⟨g, -, hal, ha⟩ := Vm.space_allocatePhysPage vm
  · obtain ⟨hok, hframes, hpages⟩ := hm.failed vm
    rw [hal]
    refine h.same rfl rfl hok (hframes ▸ List.nil_sublist _) hpages (Finset.empty_subset _) ?_
    rw [Section.allocates, hal]
    rfl
  · rw [hal]
    refine h.allocated ha ?_ (.inl rfl) ⟨hm, hd⟩ rfl subset_rfl (Finset.empty_subset _)
    rw [Section.allocates, hal, Option.map_some, Nat.mul_div_cancel _ (by decide)]

/-- `get_next_avail` reserves pages that nobody has. -/
theorem reserve_effect (h : Ready vm (.reserve n)) :
    Effect vm (.reserve n) ((Section.reserve n).next vm).1 ((Section.reserve n).next vm).2 := by
  have hn : 0 < n := h.ok
  dsimp only [Section.next]
  obtain ⟨hg, -⟩ | ⟨b, hg, hf⟩ := Vm.space_getNextAvail vm hn
  · rw [hg]
    exact h.same rfl rfl trivial (.refl _) subset_rfl (Finset.empty_subset _) rfl
  rw [hg]
  obtain ⟨hb, hbn, hfree, -⟩ := Space.findRun_eq_some hn hf
  obtain ⟨hspace, -, hdir, -⟩ := Vm.space_setVirtBits vm b n
  have hbase : b * 4096 / pgSize = b := Nat.mul_div_cancel _ (by decide)
  have hloop : MallocCall.loop ⟨n, b * 4096, 0⟩ = .running (.allocPage ⟨n, b * 4096, 0⟩) :=
    if_neg (Nat.ne_of_lt hn)
  dsimp only
  rw [hloop]
  -- the bits of the run were clear, so its pages were nobody's
  refine
    { pageDir := hdir.trans h.pageDir
      isolated := hspace ▸ h.isolated.take b n
      ok := ⟨Nat.mul_mod_left _ _, hbase.symm ▸ hb, hbase.symm ▸ hbn, hn⟩
      tables := fun _ => by rw [hspace]; exact ⟨rfl, rfl⟩
      page := fun _ _ => by rw [hspace]; rfl
      unref := fun a hr _ => by rw [hspace]; exact ⟨hr.frame, hr.pos, hr.dir, hr.page⟩
      used := fun f hf => by rw [hspace]; exact .inl hf
      frames := fun a ha => absurd ha List.not_mem_nil
      framesOnce := List.nodup_nil
      taken := fun v _ hv => ?_
      pages := fun v hv => ?_
      bitmap := fun _ => .inl (eq_of_bit_eq (congrArg Space.used hspace))
      allocates := fun f hf => absurd hf (by simp [Section.allocates]) }
  · rw [hspace]
    simp only [Space.take, hv, Bool.or_true]
  · have hmem : v ∈ Finset.Ico (b * 4096 / pgSize) (b * 4096 / pgSize + n) := by
      rcases Finset.mem_union.mp hv with hv | hv
      · exact hv
      · exact absurd hv (Finset.notMem_empty v)
    rw [hbase, Finset.mem_Ico] at hmem
    refine ⟨?_, by omega, .inr (hfree v hmem.1 hmem.2)⟩
    rw [hspace]
    simp only [Space.take, hmem, and_self, decide_true, Bool.true_or]

/-! ### Sections that write the tables -/

/-- A section under `page_table_lock` that leaves `virt_bitmap` alone. -/
theorem Ready.inside (h : Ready vm sec) (hin : sec.inside = true) (hgrants : sec.grants = none)
    (halloc : sec.allocates vm = none) (hdir : vm'.pageDir = vm.pageDir)
    (hiso : vm'.space.Isolated) (hok : th.Ok vm') (htaken : vm'.space.taken = vm.space.taken)
    (hpages : th.pages ⊆ sec.pages)
    (hpage : ∀ v, v ∉ sec.pages → vm'.space.page v = vm.space.page v)
    (hunref : ∀ a, vm.space.Unref a → a ∉ sec.frames → vm'.space.Unref a)
    (hused : ∀ f, vm.space.used f = true → vm'.space.used f = true ∨ sec.releases = some f)
    (hframes : ∀ a ∈ th.frames,
      vm'.space.Reserved a ∧ (a ∈ sec.frames ∨ ¬ vm.space.Reserved a))
    (honce : th.frames.Nodup) : Effect vm sec vm' th where
  pageDir := hdir.trans h.pageDir
  isolated := hiso
  ok := hok
  tables hout := absurd (hin.symm.trans hout) (by decide)
  page := hpage
  unref := hunref
  used := hused
  frames := hframes
  framesOnce := honce
  taken _ _ hv := htaken ▸ hv
  pages v hv := by
    rw [hgrants, Option.getD_none, Finset.union_empty] at hv
    rw [htaken]
    exact ⟨(h.pages v (hpages hv)).1, (h.pages v (hpages hv)).2, .inl (hpages hv)⟩
  bitmap hout := absurd (hin.symm.trans hout) (by decide)
  allocates f hf := absurd (halloc.symm.trans hf) (by simp)

theorem newTable_effect {t : ℕ} (h : Ready vm (.newTable m pa t)) :
    Effect vm (.newTable m pa t) (newPageTable vm vm.pageDir m.va t)
      (.running (.setEntry m pa t)) := by
  obtain ⟨hm, hd⟩ : m.InLoop ∧ vm.space.dir (m.page / 1024) = 0 := h.ok
  have hmem : ∀ a ∈ [pa, t], vm.space.Reserved a := h.frames
  obtain ⟨hr, hu⟩ := hmem t (by simp)
  obtain ⟨hrpa, hupa⟩ := hmem pa (by simp)
  have hne : pa ≠ t := by
    have honce : [pa, t].Nodup := h.framesOnce
    simpa using honce
  have hspace := Vm.space_newPageTable h.pageDir h.isolated m.va_lt (hm.va_div ▸ hd) hr
  rw [hm.va_div] at hspace
  -- the other frames stay unreferenced
  have hunref : ∀ a, vm.space.Unref a → a ≠ t →
      (vm.space.addTable (m.page / 1024) t).Unref a := by
    intro a ha hat
    refine ⟨ha.frame, ha.pos, fun i hi => ?_, ha.page⟩
    simp only [Space.addTable, update_apply] at hi
    split at hi
    · exact hat hi.symm
    · exact ha.dir i hi
  refine h.inside rfl rfl rfl rfl (hspace ▸ h.isolated.addTable hr hu hd hm.page_lt)
    ⟨hm, ?_, hr.pos⟩ (congrArg Space.taken hspace :) subset_rfl (fun v _ => by rw [hspace]; rfl)
    (fun a ha hnot => ?_) (fun f hf => .inl (hspace ▸ hf)) (fun a ha => ?_)
    (List.nodup_singleton _)
  · rw [hspace]
    exact update_self _ _ _
  · rw [hspace]
    exact hunref a ha fun hat => hnot (by simp [Section.frames, hat])
  · obtain rfl := List.mem_singleton.mp ha
    rw [hspace]
    exact ⟨⟨hunref a hrpa hne, hupa⟩, .inl (by simp [Section.frames])⟩

theorem setEntry_effect (h : Ready vm (.setEntry m pa pde)) :
    Effect vm (.setEntry m pa pde) (vm.storeEntry pde (ptx m.va) pa)
      (.running (.markPhys m pa)) := by
  obtain ⟨hm, hd, hpde⟩ : m.InLoop ∧ vm.space.dir (m.page / 1024) = pde ∧ pde ≠ 0 := h.ok
  obtain ⟨hr, hu⟩ : vm.space.Reserved pa := h.frames pa (List.mem_singleton_self _)
  have hd0 : vm.space.dir (m.page / 1024) ≠ 0 := hd ▸ hpde
  have hspace : (vm.storeEntry pde (ptx m.va) pa).space
      = { vm.space with page := update vm.space.page m.page pa } := by
    have hst := Vm.space_storePte h.pageDir h.isolated hm.page_lt
      (Nat.mod_lt m.page (by decide)) hd0 (lt_of_lt_of_le hr.frame.2 (by decide))
    rwa [show 1024 * (m.page / 1024) + m.page % 1024 = m.page by omega, hd, ← hm.va_div,
      ← ptx_eq, hm.va_div] at hst
  -- the frame and the page are marked already, so installing the page writes its entry only
  have hinstall : vm.space.install m.page pa
      = { vm.space with page := update vm.space.page m.page pa } :=
    Space.ext rfl rfl (Space.update_true_eq_self hu)
      (Space.update_true_eq_self (h.pages _ hm.page_mem).1)
  have hpos := hm.pos
  have hiso := h.isolated.install hr hd0 (by unfold MallocCall.page; omega)
  rw [hinstall] at hiso
  refine h.inside rfl rfl rfl rfl (hspace ▸ hiso) ⟨hm, ?_, hr.pos⟩
    (congrArg Space.taken hspace :) subset_rfl (fun v hv => ?_) (fun a ha hnot => ?_)
    (fun f hf => .inl (hspace ▸ hf)) (fun a ha => absurd ha List.not_mem_nil) List.nodup_nil
  · rw [hspace]
    exact update_self _ _ _
  · rw [hspace]
    exact update_of_ne (fun hvm => hv (by rw [hvm]; exact hm.page_mem)) _ _
  -- the frame that gets referenced is the thread's own
  · rw [hspace]
    refine ⟨ha.frame, ha.pos, ha.dir, fun v hv => ?_⟩
    simp only [update_apply] at hv
    split at hv
    · exact hnot (List.mem_singleton.mpr hv.symm)
    · exact ha.page v hv

/-- The frame of the page is the thread's own until its bit is cleared. -/
theorem unmap_effect (h : Ready vm (.unmap f)) :
    Effect vm (.unmap f) ((Section.unmap f).next vm).1 ((Section.unmap f).next vm).2 := by
  have hhead : f.AtHead := h.ok
  dsimp only [Section.next]
  split
  · exact h.same rfl rfl trivial (.refl _) (Finset.empty_subset _) (Finset.empty_subset _) rfl
  -- the page table, then the entry
  next hi =>
  have hloop : f.InLoop := ⟨lt_of_le_of_ne hhead.le hi, hhead.once⟩
  split
  · exact h.same rfl rfl hloop.advance (.refl _) f.advance_pages_subset (Finset.empty_subset _) rfl
  next hd =>
  have hpte := Vm.walk_eq f.va_lt hd
  rw [Vm.loadPde_eq f.va_lt] at hd hpte ⊢
  rw [f.va_div] at hd hpte ⊢
  rw [hpte]
  split
  · exact h.same rfl rfl hloop.advance (.refl _) f.advance_pages_subset (Finset.empty_subset _) rfl
  next hp =>
  have hlt : f.page / 1024 < 1024 := Vm.div_lt_of_lt_numVirtPages (Nat.mod_lt _ (by decide))
  have hspace : (vm.storeEntry (vm.space.dir (f.page / 1024)) (ptx f.va) 0).space
      = { vm.space with page := update vm.space.page f.page 0 } := by
    have hst := Vm.space_storePte h.pageDir h.isolated hlt (Nat.mod_lt f.page (by decide)) hd
      (show 0 < 2 ^ 32 by decide)
    rwa [show 1024 * (f.page / 1024) + f.page % 1024 = f.page by omega, ← f.va_div,
      ← ptx_eq, f.va_div] at hst
  refine h.inside rfl rfl rfl rfl (hspace ▸ h.isolated.zeroEntry f.page) ⟨hloop, ?_, ?_, hd⟩
    (congrArg Space.taken hspace :) subset_rfl (fun v hv => ?_) (fun a ha _ => ?_)
    (fun g hg => .inl (hspace ▸ hg)) (fun a ha => ?_) (List.nodup_singleton _)
  · rw [hspace]
    exact update_self _ _ _
  · rw [hspace]
  · rw [hspace]
    exact update_of_ne (fun hvf => hv (by rw [hvf]; exact hloop.page_mem)) _ _
  -- zeroing an entry references no frame
  · rw [hspace]
    refine ⟨ha.frame, ha.pos, ha.dir, fun v hv => ?_⟩
    simp only [update_apply] at hv
    split at hv
    · exact ha.pos hv.symm
    · exact ha.page v hv
  -- the frame was referenced by this page alone, and now it is the thread's
  · obtain rfl := List.mem_singleton.mp ha
    obtain ⟨hf, hu⟩ := h.isolated.page_frame f.page hp
    refine ⟨?_, .inr fun hr => hr.1.page f.page rfl⟩
    rw [hspace]
    refine ⟨⟨hf, hp, fun i hi => ?_, fun v hv => ?_⟩, hu⟩
    · exact h.isolated.dir_ne_page i f.page (hi ▸ hp) hi
    · simp only [update_apply] at hv
      split at hv
      · exact hp hv.symm
      · next hne => exact hne (h.isolated.page_inj v f.page (hv ▸ hp) hv)

theorem checkTable_effect (h : Ready vm (.checkTable f pde)) :
    Effect vm (.checkTable f pde) ((Section.checkTable f pde).next vm).1
      ((Section.checkTable f pde).next vm).2 := by
  obtain ⟨hloop, rfl, hd0⟩ : f.InLoop ∧ vm.space.dir (f.page / 1024) = pde ∧ pde ≠ 0 := h.ok
  have hlt : f.page / 1024 < 1024 := Vm.div_lt_of_lt_numVirtPages (Nat.mod_lt _ (by decide))
  dsimp only [Section.next]
  rw [Vm.pageTableEmpty_eq hlt hd0]
  split
  -- an empty table leaves the directory, and its frame is the thread's now
  · next he =>
    have hspace := Vm.space_clearPde h.pageDir h.isolated f.va_lt (f.va_div ▸ he)
    rw [f.va_div] at hspace
    refine h.inside rfl rfl rfl rfl (hspace ▸ h.isolated.dropDir he) hloop
      (congrArg Space.taken hspace :) subset_rfl (fun v _ => by rw [hspace]) (fun a ha _ => ?_)
      (fun g hg => .inl (hspace ▸ hg)) (fun a ha => ?_) (List.nodup_singleton _)
    · rw [hspace]
      refine ⟨ha.frame, ha.pos, fun i hi => ?_, ha.page⟩
      simp only [update_apply] at hi
      split at hi
      · exact ha.pos hi.symm
      · exact ha.dir i hi
    · obtain rfl := List.mem_singleton.mp ha
      obtain ⟨hf, hu⟩ := h.isolated.dir_frame _ hd0
      refine ⟨?_, .inr fun hr => hr.1.dir _ rfl⟩
      rw [hspace]
      refine ⟨⟨hf, hd0, fun i hi => ?_, fun v => (h.isolated.dir_ne_page _ v hd0).symm⟩, hu⟩
      simp only [update_apply] at hi
      split at hi
      · exact hd0 hi.symm
      · next hne => exact hne (h.isolated.dir_inj i _ (hi ▸ hd0) hi)
  · exact h.same rfl rfl hloop.advance (.refl _) subset_rfl (Finset.empty_subset _) rfl

/-! ### Sections that clear a bit -/

/-- The thread gives up the one frame it has. -/
theorem Ready.released (h : Ready vm sec) {a : ℕ} (hin : sec.inside = true)
    (hgrants : sec.grants = none) (halloc : sec.allocates vm = none) (hmem : sec.frames = [a])
    (hrel : sec.releases = some (a / 4096)) (hdir : vm'.pageDir = vm.pageDir)
    (hspace : vm'.space = { vm.space with used := update vm.space.used (a / 4096) false })
    (hok : th.Ok vm') (hpages : th.pages ⊆ sec.pages) (hframes : th.frames = []) :
    Effect vm sec vm' th := by
  obtain ⟨hr, -⟩ := h.frames a (hmem ▸ List.mem_singleton_self a)
  have hiso : vm'.space.Isolated := by
    rw [hspace]
    refine h.isolated.unmark hr.number_ne_zero (fun i hi hc => ?_) fun v hv hc => ?_
    · exact hr.dir i (IsFrame.number_inj (h.isolated.dir_frame i hi).1 hr.frame hc)
    · exact hr.page v (IsFrame.number_inj (h.isolated.page_frame v hv).1 hr.frame hc)
  refine h.inside hin hgrants halloc hdir hiso hok (congrArg Space.taken hspace :) hpages
    (fun v _ => by rw [hspace])
    (fun b hb _ => by rw [hspace]; exact ⟨hb.frame, hb.pos, hb.dir, hb.page⟩) (fun g hg => ?_)
    (fun b hb => absurd hb (by rw [hframes]; exact List.not_mem_nil))
    (hframes ▸ List.nodup_nil)
  by_cases hga : g = a / 4096
  · exact .inr (hga ▸ hrel)
  · refine .inl ?_
    rw [hspace]
    exact (update_of_ne hga _ _).trans hg

theorem clearPhys_effect (h : Ready vm (.clearPhys f pde pte)) :
    Effect vm (.clearPhys f pde pte) (vm.clearPhysBit (pte >>> pfnShift))
      (.running (.clearVirt f pde)) := by
  have hspace : (vm.clearPhysBit (pte >>> pfnShift)).space
      = { vm.space with used := update vm.space.used (pte / 4096) false } := by
    refine Space.ext rfl rfl ?_ rfl
    change bit (clearBit vm.physBitmap (pte >>> 12)) = _
    rw [bit_clearBit, shiftRight_12]
    rfl
  exact h.released rfl rfl rfl rfl (congrArg some (shiftRight_12 pte)) rfl hspace h.ok subset_rfl
    rfl

/-- The byte that is stored is the one that was loaded, with the bit cleared. -/
theorem storeByte_effect {byte : UInt8} (h : Ready vm (.storeByte f pde byte)) :
    Effect vm (.storeByte f pde byte) ((Section.storeByte f pde byte).next vm).1
      (.running (.zeroTable f pde)) := by
  obtain ⟨hloop, hbyte⟩ : f.InLoop ∧ byte = vm.physBitmap ((pde >>> pfnShift) / 8) := h.ok
  obtain ⟨hr, -⟩ := h.frames pde (List.mem_singleton_self pde)
  have hspace : ((Section.storeByte f pde byte).next vm).1.space
      = { vm.space with used := update vm.space.used (pde / 4096) false } := by
    refine Space.ext rfl rfl ?_ rfl
    change bit (storeByte vm.physBitmap _ (clearMask byte _)) = _
    rw [hbyte, bit_clearByte, show pde >>> pfnShift = pde / 4096 from shiftRight_12 pde]
    rfl
  exact h.released rfl rfl rfl rfl (congrArg some (shiftRight_12 pde)) rfl hspace
    ⟨hloop, hr.frame, hr.pos, hspace ▸ hr.dir⟩ subset_rfl rfl

theorem clearVirt_effect (h : Ready vm (.clearVirt f pde)) :
    Effect vm (.clearVirt f pde) (vm.clearVirtBit (f.va >>> pfnShift))
      (.running (.invalidate f pde)) := by
  obtain ⟨hloop, hp, hd⟩ : f.InLoop ∧ vm.space.page f.page = 0 ∧
    vm.space.dir (f.page / 1024) = pde ∧ pde ≠ 0 := h.ok
  have hspace : (vm.clearVirtBit (f.va >>> pfnShift)).space
      = { vm.space with taken := update vm.space.taken f.page false } := by
    refine Space.ext rfl rfl rfl ?_
    change bit (clearBit vm.virtBitmap (f.va >>> 12)) = _
    rw [bit_clearBit, shiftRight_12, f.va_div]
    rfl
  refine
    { pageDir := h.pageDir
      isolated := hspace ▸ h.isolated.untake hp
      ok := ⟨hloop, hd⟩
      tables := fun hin => absurd hin (by simp [Section.inside])
      page := fun v _ => rfl
      unref := fun a ha _ => ⟨ha.frame, ha.pos, ha.dir, ha.page⟩
      used := fun g hg => .inl hg
      frames := fun a ha => absurd ha List.not_mem_nil
      framesOnce := List.nodup_nil
      taken := fun v hv ht => ?_
      pages := fun v hv => ?_
      bitmap := fun hin => absurd hin (by simp [Section.inside])
      allocates := fun g hg => absurd hg (by simp [Section.allocates]) }
  · rw [hspace]
    exact (update_of_ne (fun hvf => hv (by rw [hvf]; exact hloop.page_mem)) _ _).trans ht
  -- the pages still to be freed keep their bits, since no page comes twice
  · have hnext : v ∈ f.advance.pages := by
      rcases Finset.mem_union.mp hv with hv | hv
      · exact hv
      · exact absurd hv (Finset.notMem_empty v)
    have hsec := f.advance_pages_subset hnext
    refine ⟨?_, (h.pages v hsec).2, .inl hsec⟩
    rw [hspace]
    refine (update_of_ne (fun hvf => ?_) _ _).trans (h.pages v hsec).1
    rw [hvf] at hnext
    exact hloop.page_notMem hnext

/-- **What a section does**, when it runs on what it relies on. -/
theorem Ready.effect (h : Ready vm sec) : Effect vm sec (sec.next vm).1 (sec.next vm).2 := by
  cases sec with
  | setup n => exact setup_effect h
  | reserve n => exact reserve_effect h
  | allocPage m => exact allocPage_effect h
  | lockTable m pa => exact lockTable_effect h
  | allocTable m pa => exact allocTable_effect h
  | newTable m pa t => exact newTable_effect h
  | setEntry m pa pde => exact setEntry_effect h
  | markPhys m pa => exact markPhys_effect h
  | markVirt m pa => exact markVirt_effect h
  | addTlb m pa => exact addTlb_effect h
  | lock f => exact lock_effect h
  | unmap f => exact unmap_effect h
  | clearPhys f pde pte => exact clearPhys_effect h
  | clearVirt f pde => exact clearVirt_effect h
  | invalidate f pde => exact invalidate_effect h
  | checkTable f pde => exact checkTable_effect h
  | loadByte f pde => exact loadByte_effect h
  | storeByte f pde byte => exact storeByte_effect h
  | zeroTable f pde => exact zeroTable_effect h

/-! ### The other threads -/

/-- What another thread relies on still holds after the section, unless an allocation has changed
the byte that the other thread is about to store. -/
theorem Effect.ok_other (e : Effect vm sec vm' th) {th' : Thread} (hok : th'.Ok vm)
    (hlock : th'.inside = true → sec.inside = false) (hpages : ∀ v ∈ th'.pages, v ∉ sec.pages)
    (hbyte : ∀ fr pde byte, th' = .running (.storeByte fr pde byte) →
      vm'.physBitmap ((pde >>> pfnShift) / 8) = vm.physBitmap ((pde >>> pfnShift) / 8)) :
    th'.Ok vm' := by
  cases th' with
  | idle => trivial
  | returned r => trivial
  | running sec' =>
    -- outside the lock a thread relies on its own page at most
    cases sec' with
    | setup n => trivial
    | reserve n => exact hok
    | allocPage m => exact hok
    | lockTable m pa => exact hok
    | markVirt m pa => exact hok
    | addTlb m pa => exact hok
    | lock f => exact hok
    | unmap f => exact hok
    | loadByte f pde => exact hok
    -- inside it, on the tables, which the section leaves alone
    | allocTable m pa => exact ⟨hok.1, (congrFun (e.tables (hlock rfl)).1 _).trans hok.2⟩
    | newTable m pa t => exact ⟨hok.1, (congrFun (e.tables (hlock rfl)).1 _).trans hok.2⟩
    | setEntry m pa pde =>
      exact ⟨hok.1, (congrFun (e.tables (hlock rfl)).1 _).trans hok.2.1, hok.2.2⟩
    | markPhys m pa => exact ⟨hok.1, (e.page _ (hpages _ hok.1.page_mem)).trans hok.2.1, hok.2.2⟩
    | clearPhys f pde pte =>
      obtain ⟨hdir, hpage⟩ := e.tables (hlock rfl)
      exact ⟨hok.1, (congrFun hpage _).trans hok.2.1, (congrFun hdir _).trans hok.2.2.1, hok.2.2.2⟩
    | clearVirt f pde =>
      obtain ⟨hdir, hpage⟩ := e.tables (hlock rfl)
      exact ⟨hok.1, (congrFun hpage _).trans hok.2.1, (congrFun hdir _).trans hok.2.2.1, hok.2.2.2⟩
    | invalidate f pde =>
      exact ⟨hok.1, (congrFun (e.tables (hlock rfl)).1 _).trans hok.2.1, hok.2.2⟩
    | checkTable f pde =>
      exact ⟨hok.1, (congrFun (e.tables (hlock rfl)).1 _).trans hok.2.1, hok.2.2⟩
    | storeByte f pde byte => exact ⟨hok.1, hok.2.trans (hbyte f pde byte rfl).symm⟩
    | zeroTable f pde =>
      refine ⟨hok.1, hok.2.1, hok.2.2.1, fun i => ?_⟩
      rw [(e.tables (hlock rfl)).1]
      exact hok.2.2.2 i

theorem MallocCall.loop_inside (m : MallocCall) : m.loop.inside = false := by
  unfold MallocCall.loop
  split <;> rfl

/-- A call that returns an allocation works on no page any more. -/
theorem Section.next_pages (h : sec.grants.getD ∅ ≠ ∅) : (sec.next vm).2.pages = ∅ := by
  cases sec with
  | addTlb m pa =>
    dsimp only [Section.grants] at h
    dsimp only [Section.next, MallocCall.loop]
    split at h
    · next hi => rw [if_pos (show m.advance.i = m.advance.numPages from hi)]; rfl
    · exact absurd rfl h
  | _ => exact absurd rfl h

/-- Only a section that takes the lock leads inside. -/
theorem Section.next_inside (hin : sec.inside = false) (hlocks : sec.locks = false) :
    (sec.next vm).2.inside = false := by
  cases sec with
  | setup n => dsimp only [Section.next]; split <;> rfl
  | reserve n =>
    dsimp only [Section.next]
    split
    · rfl
    · exact MallocCall.loop_inside _
  | allocPage m => dsimp only [Section.next]; split <;> rfl
  | markPhys m pa => rfl
  | markVirt m pa => rfl
  | addTlb m pa => exact MallocCall.loop_inside _
  | lockTable m pa => exact absurd hlocks (by simp [Section.locks])
  | lock f => exact absurd hlocks (by simp [Section.locks])
  | _ => exact absurd hin (by simp [Section.inside])

end

end Allocator

end MyVm
