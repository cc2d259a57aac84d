import Cs416.Vm.Runs

/-!
# The flat memory that the library implements

`FlatStep` is the specification of the library as a flat byte memory with 32-bit addresses:
`n_malloc` makes a range of whole pages present, `n_free` makes one absent, `put_data` stores
the bytes in front of the first absent one and reports whether that was all of them, and
`get_data` delivers the bytes in front of the first absent one. Nothing else changes.

`history` replays the labels of a run on a memory whose cells also record whether a byte was
stored since its page was allocated, so that `Tracks` says which bytes `get_data` is bound to
deliver.

`refines_flat_memory` is the refinement. Its side condition concerns the calls before the
first allocation: `put_data`, `get_data` and `n_free` do not check that the memory was
initialised and dereference the null `page_dir`.
-/

open ByteMem FlatMem Lts

namespace MyVm

/-! ### The specification -/

/-- Address `a` lies in one of the `n` pages from the page of `va` on. -/
def InPages (va n a : ℕ) : Prop := ∃ k < n, a / pgSize = (va / pgSize + k) % numVirtPages

/-- One call on a flat memory, with its result and the memory it leaves. -/
inductive FlatStep (f : Flat UInt8) : Call → Result → Flat UInt8 → Prop
  | mallocNull (numBytes : UInt32) : FlatStep f (.nMalloc numBytes) (.addr none) f
  | malloc (numBytes : UInt32) (base : ℕ) (f' : Flat UInt8) : base % pgSize = 0 → base < 2 ^ 32 →
      (∀ a, InPages base (roundUpPages numBytes.toNat) a → f a = none ∧ f' a ≠ none) →
      (∀ a, ¬ InPages base (roundUpPages numBytes.toNat) a → f' a = f a) →
      FlatStep f (.nMalloc numBytes) (.addr (some base)) f'
  | free (va : UInt32) (size : Int32) (f' : Flat UInt8) :
      (∀ a, InPages va.toNat (roundUpPages (u32 size.toInt)) a → f' a = none) →
      (∀ a, ¬ InPages va.toNat (roundUpPages (u32 size.toInt)) a → f' a = f a) →
      FlatStep f (.nFree va size) .void f'
  | putInvalid (va : UInt32) (val : Option Bytes) (size : Int32) : val = none ∨ size.toInt ≤ 0 →
      FlatStep f (.putData va val size) (.code (-1)) f
  | put (va : UInt32) (src : Bytes) (size : Int32) (d : ℕ) : 0 < size.toInt →
      IsPrefix f va.toNat size.toInt.toNat d →
      FlatStep f (.putData va (some src) size) (.code (if d = size.toInt.toNat then 0 else -1))
        (store f va.toNat src d)
  | getInvalid (va : UInt32) (val : Option Bytes) (size : Int32) : val = none ∨ size.toInt ≤ 0 →
      FlatStep f (.getData va val size) (.buffer val) f
  | get (va : UInt32) (dst dst' : Bytes) (size : Int32) (d : ℕ) : 0 < size.toInt →
      IsPrefix f va.toNat size.toInt.toNat d →
      (∀ k < d, some (dst' k) = f ((va.toNat + k) % 2 ^ 32)) → (∀ k, d ≤ k → dst' k = dst k) →
      FlatStep f (.getData va (some dst) size) (.buffer (some dst')) f
  | translate (va : UInt32) (p : Option PtePtr) : (p = none ↔ f va.toNat = none) →
      FlatStep f (.translate va) (.ptr p) f

open Classical in
/-- The effect of a call that returned on a memory whose cells remember the byte stored there
since the page was allocated, if there was one. -/
noncomputable def record (m : Flat (Option UInt8)) : Call × Result → Flat (Option UInt8)
  | (.nMalloc numBytes, .addr (some base)) => fun a =>
    if InPages base (roundUpPages numBytes.toNat) a then some none else m a
  | (.nFree va size, _) => fun a =>
    if InPages va.toNat (roundUpPages (u32 size.toInt)) a then none else m a
  | (.putData va (some src) size, _) =>
    store m va.toNat (fun k => some (src k)) (prefixLen m va.toNat size.toInt.toNat)
  | _ => m

/-- The recorded memory after the calls of a run. -/
noncomputable def history (ls : List (Call × Result)) : Flat (Option UInt8) :=
  ls.foldl record fun _ => none

/-- The flat memory `f` has the cells that `m` has, and the bytes that `m` remembers. -/
structure Tracks (m : Flat (Option UInt8)) (f : Flat UInt8) : Prop where
  present : ∀ a, m a = none ↔ f a = none
  stored : ∀ a b, m a = some (some b) → f a = some b

/-- A step of the flat memory keeps what was recorded. -/
theorem Tracks.step {m : Flat (Option UInt8)} {f f' : Flat UInt8} {c : Call} {r : Result}
    (h : Tracks m f) (hs : FlatStep f c r f') : Tracks (record m (c, r)) f' := by
  cases hs with
  | mallocNull => exact h
  | malloc numBytes base f' _ _ hin hout =>
    refine ⟨fun a => ?_, fun a b hb => ?_⟩
    · rw [record]
      dsimp only
      split
      · next ha => simp [(hin a ha).2]
      · next ha => rw [hout a ha, h.present]
    · rw [record] at hb
      dsimp only at hb
      split at hb
      · exact absurd hb (by simp)
      · next ha => rw [hout a ha, h.stored a b hb]
  | free va size f' hin hout =>
    refine ⟨fun a => ?_, fun a b hb => ?_⟩
    · rw [record]
      dsimp only
      split
      · next ha => simp [hin a ha]
      · next ha => rw [hout a ha, h.present]
    · rw [record] at hb
      dsimp only at hb
      split at hb
      · exact absurd hb (by simp)
      · next ha => rw [hout a ha, h.stored a b hb]
  | putInvalid va val size hbad =>
    cases val with
    | none => exact h
    | some src =>
      rw [record, show size.toInt.toNat = 0 by have := hbad.resolve_left (by simp); omega,
        prefixLen, store_zero]
      exact h
  | put va src size d hpos hpre =>
    -- both memories are written up to the first absent cell
    have hd : prefixLen m va.toNat size.toInt.toNat = d :=
      IsPrefix.unique h.present (isPrefix_prefixLen va.toNat_lt) hpre
    rw [record, hd]
    refine ⟨fun a => ?_, fun a b hb => ?_⟩
    · rw [store_eq_none_iff va.toNat_lt hpre.present, store_eq_none_iff va.toNat_lt, h.present]
      exact fun k hk hc => hpre.present k hk ((h.present _).mp hc)
    · unfold store at hb ⊢
      split at hb
      · next ha =>
        rw [if_pos ha]
        simpa using hb
      · next ha =>
        rw [if_neg ha]
        exact h.stored a b hb
  | getInvalid => exact h
  | get => exact h
  | translate => exact h

/-! ### One call on an initialised memory -/

namespace Space

variable {s : Space} {n b : ℕ}

/-- A failed request leaves the page map as it was. -/
theorem malloc_page_of_none (h : s.WF) (hr : (s.malloc n).2 = none) :
    (s.malloc n).1.page = s.page := by
  rcases Nat.eq_zero_or_pos n with rfl | hn
  · rfl
  cases hf : s.findRun n with
  | none => rw [malloc, if_neg (by omega), hf]
  | some b =>
    obtain ⟨-, hbn, hrun, -⟩ := findRun_eq_some hn hf
    have hfree : ∀ k < n, s.page (b + k) = 0 := fun k hk => h.page_of_run hrun hk
    have hout := malloc_outcome h hn hf
    rw [malloc_of_findRun hn hf] at hr ⊢
    generalize (s.take b n).mallocPages b 0 n = r at hout hr ⊢
    cases hout with
    -- the loop fails at some page `j`, and the rollback frees the pages below it
    | success hp => exact absurd hr (by simp)
    | failure hj hp hfail =>
      rename_i j s' s₁
      funext v
      dsimp only
      rw [freePages_page, hfail.same.1]
      split
      -- a page of the rollback was unmapped before the call
      · next hv =>
        obtain ⟨k, hk, rfl⟩ := hv
        rw [Nat.mod_eq_of_lt (by omega), hfree k (by omega)]
      · next hv =>
        refine hp.other v fun k hk hc => hv ⟨k, hk, ?_⟩
        rw [Nat.mod_eq_of_lt (by omega), hc]

/-- A successful request maps the pages of its run and no others. -/
theorem malloc_page_of_some (h : s.WF) (hr : (s.malloc n).2 = some b) :
    b + n ≤ numVirtPages ∧ (∀ k < n, s.page (b + k) = 0 ∧ (s.malloc n).1.page (b + k) ≠ 0) ∧
      ∀ v, (∀ k < n, v ≠ b + k) → (s.malloc n).1.page v = s.page v := by
  rcases Nat.eq_zero_or_pos n with rfl | hn
  · exact absurd hr (by simp [malloc])
  cases hf : s.findRun n with
  | none =>
    rw [malloc, if_neg (by omega), hf] at hr
    exact absurd hr (by simp)
  | some b' =>
    obtain ⟨-, hbn, hrun, -⟩ := findRun_eq_some hn hf
    have hfree : ∀ k < n, s.page (b' + k) = 0 := fun k hk => h.page_of_run hrun hk
    have hout := malloc_outcome h hn hf
    rw [malloc_of_findRun hn hf] at hr ⊢
    generalize (s.take b' n).mallocPages b' 0 n = r at hout hr ⊢
    cases hout with
    | success hp =>
      obtain rfl : b' = b := by simpa using hr
      exact ⟨hbn, fun k hk => ⟨hfree k hk, (hp.mapped k hk).1⟩, hp.other⟩
    | failure => exact absurd hr (by simp)

end Space

namespace Vm

variable {vm vm' : Vm}

/-- A byte of a page that is kept, or that stays unmapped, stays the same. -/
theorem flat_of_keeps {P : ℕ → Prop} {a : ℕ} (hk : Keeps P vm vm') (hP : P (a / 4096))
    (h0 : vm.space.page (a / 4096) = 0 → vm'.space.page (a / 4096) = 0) :
    vm'.flat a = vm.flat a := by
  unfold flat
  by_cases ha : vm.space.page (a / 4096) = 0
  · rw [if_pos ha, if_pos (h0 ha)]
  · obtain ⟨hp, hm⟩ := hk _ hP ha
    rw [if_neg ha, if_neg (by rw [hp]; exact ha), hp,
      hm _ (by omega) (by simp only [pgSize]; omega)]

theorem flatStep_nMalloc (h : vm.Inv) (numBytes : UInt32) :
    FlatStep vm.flat (.nMalloc numBytes) (vm.call (.nMalloc numBytes)).2
      (vm.call (.nMalloc numBytes)).1.flat := by
  rw [Vm.call]
  split
  · exact .mallocNull numBytes
  dsimp only
  obtain ⟨hsp, hres, -, hk⟩ := space_nMalloc h numBytes.toNat
  rw [hres]
  cases hm : (vm.space.malloc (roundUpPages numBytes.toNat)).2 with
  | none =>
    have hpage := Space.malloc_page_of_none h.wf hm
    have hflat : (nMalloc vm numBytes.toNat).1.flat = vm.flat := by
      funext a
      refine flat_of_keeps hk trivial fun h0 => ?_
      rw [hsp, hpage, h0]
    rw [hflat]
    exact .mallocNull numBytes
  | some b =>
    obtain ⟨hbn, hrun, hother⟩ := Space.malloc_page_of_some h.wf hm
    rw [← hsp] at hrun hother
    have hin : ∀ a, InPages (b * 4096) (roundUpPages numBytes.toNat) a ↔
        ∃ k < roundUpPages numBytes.toNat, a / 4096 = b + k := by
      intro a
      refine exists_congr fun k => and_congr_right fun hk => ?_
      rw [show b * 4096 / pgSize = b from Nat.mul_div_cancel _ (by decide),
        Nat.mod_eq_of_lt (by omega)]
    -- a run inside the address space starts below its end
    have hb : b * 4096 < 2 ^ 32 := by
      have hpos : 0 < roundUpPages numBytes.toNat := by
        by_contra hc
        rw [show roundUpPages numBytes.toNat = 0 by omega, Space.malloc, if_pos rfl] at hm
        exact absurd hm (by simp)
      simp only [numVirtPages, maxMemSize, pgSize] at hbn
      omega
    refine .malloc numBytes (b * 4096) _ (Nat.mul_mod_left _ _) hb (fun a ha => ?_) fun a ha => ?_
    · obtain ⟨k, hk', he⟩ := (hin a).mp ha
      rw [Ne, flat_eq_none, flat_eq_none, he]
      exact hrun k hk'
    · rw [hin] at ha
      push Not at ha
      refine flat_of_keeps hk trivial fun h0 => ?_
      rw [hother _ fun k hk' => ha k hk', h0]

theorem flatStep_nFree (h : vm.Inv) (va : UInt32) (size : Int32) :
    FlatStep vm.flat (.nFree va size) .void (nFree vm va.toNat size.toInt).flat := by
  obtain ⟨hsp, -, hk⟩ := space_nFree h.toPageInv va.toNat size.toInt
  refine .free va size _ (fun a ha => ?_) fun a ha => ?_
  · rw [flat_eq_none, hsp, Space.freePages_page]
    exact if_pos ha
  · refine flat_of_keeps hk (fun k hk' hc => ha ⟨k, hk', hc⟩) fun h0 => ?_
    rw [hsp, Space.freePages_page]
    exact (if_neg ha).trans h0

theorem flatStep_putData (h : vm.Inv) (va : UInt32) (val : Option Bytes) (size : Int32) :
    FlatStep vm.flat (.putData va val size) (.code (putData vm va.toNat val size.toInt).2)
      (putData vm va.toNat val size.toInt).1.flat := by
  cases val with
  | none => exact .putInvalid va none size (Or.inl rfl)
  | some src =>
    rw [putData]
    split
    · next hs => exact .putInvalid va (some src) size (Or.inr hs)
    next hs =>
    obtain ⟨-, -, d, hpre, hst, hret⟩ := putLoop_spec h src 0 (n := size.toInt.toNat) va.toNat_lt
      (by have := size.toInt_lt; omega)
    rw [hret, hst]
    simp only [Nat.zero_add]
    exact .put va src size d (by omega) hpre

theorem flatStep_getData (h : vm.Inv) (va : UInt32) (val : Option Bytes) (size : Int32) :
    FlatStep vm.flat (.getData va val size) (.buffer (getData vm va.toNat val size.toInt).2)
      (getData vm va.toNat val size.toInt).1.flat := by
  cases val with
  | none => exact .getInvalid va none size (Or.inl rfl)
  | some dst =>
    rw [getData]
    split
    · next hs => exact .getInvalid va (some dst) size (Or.inr hs)
    next hs =>
    obtain ⟨-, -, hfl, d, hpre, hget, hkeep⟩ := getLoop_spec h dst 0 (n := size.toInt.toNat)
      va.toNat_lt
    simp only [Nat.zero_add] at hget hkeep
    dsimp only
    rw [hfl]
    exact .get va dst _ size d (by omega) hpre hget fun k hk => hkeep k (Or.inr hk)

/-- **One call** of an initialised memory is a step of the flat memory. -/
theorem flatStep_call (h : vm.Inv) (c : Call) :
    FlatStep vm.flat c (vm.call c).2 (vm.call c).1.flat := by
  cases c with
  | nMalloc numBytes => exact flatStep_nMalloc h numBytes
  | nFree va size => exact flatStep_nFree h va size
  | putData va val size => exact flatStep_putData h va val size
  | getData va val size => exact flatStep_getData h va val size
  | translate va =>
    obtain ⟨-, hsp, hm, -, hnone, -⟩ := translate_spec h va.toNat_lt
    rw [Vm.call, flat_congr hm hsp]
    exact .translate va _ (by rw [hnone, flat_eq_none])

end Vm

/-! ### Runs -/

/-- The flat memory of a process; nothing is present before initialisation. -/
def Process.flat : Process → Flat UInt8
  | some vm => vm.flat
  | none => fun _ => none

/-- The call dereferences `page_dir`, or an entry of it. -/
def Call.ReadsDirectory : Call → Prop
  | .nMalloc _ => False
  | .nFree _ size => roundUpPages (u32 size.toInt) ≠ 0
  | .putData _ val size => val ≠ none ∧ 0 < size.toInt
  | .getData _ val size => val ≠ none ∧ 0 < size.toInt
  | .translate _ => True

theorem flat_setPhysicalMem (heap : Bytes) : (setPhysicalMem heap).flat = fun _ => none := by
  funext a
  rw [Vm.flat_eq_none, (setPhysicalMem_spec heap).2.2]
  rfl

/-- Before initialisation exactly the calls that do not read the directory return. -/
theorem callUninit_eq_none_iff (heap : Bytes) (c : Call) :
    callUninit heap c = none ↔ c.ReadsDirectory := by
  -- each function returns just where it does not come to `page_directory`
  cases c with
  | nMalloc numBytes =>
    rw [callUninit]
    split <;> exact iff_of_false (by simp) id
  | nFree va size =>
    rw [callUninit, Call.ReadsDirectory]
    split
    · next hn => exact iff_of_false (by simp) (not_not.mpr hn)
    · next hn => exact iff_of_true rfl hn
  | putData va val size =>
    rw [callUninit, Call.ReadsDirectory, ← not_le, Ne, ← not_or]
    split
    · next hn =>
      rw [Option.isNone_iff_eq_none] at hn
      exact iff_of_false (by simp) (not_not.mpr hn)
    · next hn =>
      rw [Option.isNone_iff_eq_none] at hn
      exact iff_of_true rfl hn
  | getData va val size =>
    rw [callUninit, Call.ReadsDirectory, ← not_le, Ne, ← not_or]
    split
    · next hn =>
      rw [Option.isNone_iff_eq_none] at hn
      exact iff_of_false (by simp) (not_not.mpr hn)
    · next hn =>
      rw [Option.isNone_iff_eq_none] at hn
      exact iff_of_true rfl hn
  | translate va => exact iff_of_true rfl trivial

/-- A call before initialisation that returns is a step of the empty memory. -/
theorem flatStep_callUninit {heap : Bytes} {c : Call} {p' : Process} {r : Result}
    (hs : callUninit heap c = some (p', r)) : FlatStep (fun _ => none) c r p'.flat := by
  cases c with
  | nMalloc numBytes =>
    rw [callUninit] at hs
    split at hs
    · cases hs
      exact .mallocNull numBytes
    -- `n_malloc` sets the memory up, which maps no page
    · cases hs
      have := Vm.flatStep_call (setPhysicalMem_inv heap) (.nMalloc numBytes)
      rwa [flat_setPhysicalMem] at this
  | nFree va size =>
    rw [callUninit] at hs
    split at hs
    · cases hs
      exact .free va size _ (fun _ _ => rfl) fun _ _ => rfl
    · exact absurd hs (by simp)
  | putData va val size =>
    rw [callUninit] at hs
    split at hs
    · next hn =>
      cases hs
      exact .putInvalid va val size (by rwa [Option.isNone_iff_eq_none] at hn)
    · exact absurd hs (by simp)
  | getData va val size =>
    rw [callUninit] at hs
    split at hs
    · next hn =>
      cases hs
      exact .getInvalid va val size (by rwa [Option.isNone_iff_eq_none] at hn)
    · exact absurd hs (by simp)
  | translate va => exact absurd hs (by simp [callUninit])

/-- Every call that returns is a step of the flat memory. -/
theorem flatStep_of_call {heap : Bytes} {p p' : Process} {c : Call} {r : Result} (h : p.Inv)
    (hs : call heap p c = some (p', r)) : FlatStep p.flat c r p'.flat := by
  cases p with
  | some vm =>
    obtain ⟨rfl, rfl⟩ : some (vm.call c).1 = p' ∧ (vm.call c).2 = r := by
      simpa [call] using hs
    exact Vm.flatStep_call (h vm rfl) c
  | none => exact flatStep_callUninit hs

/-- A call returns unless it reads the directory before there is one. -/
theorem call_returns_iff (heap : Bytes) (p : Process) (c : Call) :
    (∃ p' r, call heap p c = some (p', r)) ↔ p ≠ none ∨ ¬ c.ReadsDirectory := by
  cases p with
  | some vm => exact iff_of_true ⟨_, _, rfl⟩ (Or.inl (by simp))
  | none =>
    rw [or_iff_right (by simp), ← callUninit_eq_none_iff heap, ← Ne, Option.ne_none_iff_exists']
    exact ⟨fun ⟨p', r, hs⟩ => ⟨(p', r), hs⟩, fun ⟨⟨p', r⟩, hs⟩ => ⟨p', r, hs⟩⟩

/-- **The library refines a flat byte memory.** In every run of calls whose `n_free` is
page-aligned, the memory holds the bytes that were stored since their pages were allocated,
and the next call returns as a step of the flat memory exactly when the memory has been
initialised or the call does not read the directory. -/
theorem refines_flat_memory (heap : Bytes) {ls : List (Call × Result)} {p : Process}
    (hr : Run (alignedCalls heap) ls p) :
    Tracks (history ls) p.flat ∧
      ∀ c : Call, c.Aligned →
        ((∃ p' r, call heap p c = some (p', r) ∧ FlatStep p.flat c r p'.flat) ↔
          p ≠ none ∨ ¬ c.ReadsDirectory) := by
  have hI := library_inv (alignedCalls_coherent hr)
  refine ⟨?_, fun c _ => ?_⟩
  · refine hr.history (I := fun ls p => Tracks (history ls) p.flat) ?_ ?_
    · intro s hs
      rw [show s = none from hs]
      exact ⟨fun _ => iff_of_true rfl rfl, fun _ _ h => absurd h (by simp [history])⟩
    · rintro ls s ⟨c, r⟩ s' hrun ht hs
      rw [history, List.foldl_append, ← history]
      exact ht.step (flatStep_of_call (library_inv (alignedCalls_coherent hrun)) hs.1)
  · rw [← call_returns_iff heap]
    refine exists_congr fun p' => exists_congr fun r => ⟨fun hs => hs.1, fun hs => ⟨hs, ?_⟩⟩
    exact flatStep_of_call hI hs

/-- The refinement after a first allocation of one byte. -/
theorem refines_flat_memory_first :
    Tracks (history [(.nMalloc 1, ((setPhysicalMem fun _ => 0).call (.nMalloc 1)).2)])
      (Process.flat (some (afterFirst (fun _ => 0) 1))) :=
  (refines_flat_memory _ (run_first (fun _ => 0) (by decide))).1

/-- `put_data` as the first call does not return. -/
theorem put_data_first : Run (library fun _ => 0) [] none ∧
    ¬ ∃ p' r, call (fun _ => 0) none (.putData 0x1000 (some fun _ => 0) 1) = some (p', r) :=
  ⟨.start rfl, by
    rintro ⟨p', r, hs⟩
    exact absurd hs (by simp [call, callUninit])⟩

end MyVm
