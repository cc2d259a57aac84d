import Cs416.Vm.Header

/-!
# The translation look-aside buffer

`TLB_add`, `TLB_check` and `TLB_invalidate` of `my_vm.c`. The three functions share one
linear search for a valid entry of a page, `Tlb.find`, and differ in the boundary address
they refuse: `TLB_add` refuses the null address and an invalid frame, the other two refuse
`0xFFFFFFFF`.

What a caller needs to know about an update is which valid `(vpn, pte)` pairs the buffer
holds afterwards. `TlbOk map t` is that knowledge in invariant form: every valid entry
agrees with the page map `map`, no page has two valid entries, and the slots at or above
`count` are invalid.
-/

open ByteMem Scan

namespace MyVm

/-- `struct tlb_entry`. -/
structure TlbEntry where
  vpn : ℕ
  pfn : ℕ
  pte : ℕ
  valid : Bool

/-- `struct tlb`; only the indices below `TLB_ENTRIES` of `entries` are used. -/
structure Tlb where
  count : ℕ
  nextEvict : ℕ
  entries : ℕ → TlbEntry

namespace Tlb

/-- The zero-initialised `tlb_store`, which is also what `set_physical_mem` resets it to. -/
def empty : Tlb where
  count := 0
  nextEvict := 0
  entries := fun _ => { vpn := 0, pfn := 0, pte := 0, valid := false }

/-- The search loop shared by the three functions: the first valid entry for `vpn`. -/
def find (t : Tlb) (vpn : ℕ) : Option ℕ :=
  firstIdx (fun i => (t.entries i).valid && (t.entries i).vpn == vpn) 0 tlbEntries

/-- Overwrite the entry in slot `i`. -/
def setEntry (t : Tlb) (i : ℕ) (e : TlbEntry) : Tlb :=
  { t with entries := Function.update t.entries i e }

/-- The slot a new entry goes to: the next unused one while the buffer fills up, and the
round-robin victim afterwards. -/
def victim (t : Tlb) : ℕ := if t.count < tlbEntries then t.count else t.nextEvict

/-- The counters after a slot was taken. -/
def advance (t : Tlb) : Tlb :=
  if t.count < tlbEntries then { t with count := t.count + 1 }
  else { t with nextEvict := (t.nextEvict + 1) % tlbEntries }

end Tlb

/-- `TLB_add`: update the entry of the page in place, or take a new slot. -/
def tlbAdd (t : Tlb) (va pa : ℕ) : Tlb × ℤ :=
  if va = 0 then (t, -1)
  else if pa = invalidPa then (t, -1)
  else
    let vpn := va >>> pfnShift
    let pfn := pa >>> pfnShift
    match t.find vpn with
    | some i => (t.setEntry i { t.entries i with pte := pa, pfn := pfn }, 0)
    | none =>
      (t.advance.setEntry t.victim { vpn := vpn, pfn := pfn, pte := pa, valid := true }, 0)

/-- `TLB_check`: the slot whose `pte` field the returned pointer addresses. -/
def tlbCheck (t : Tlb) (va : ℕ) : Option ℕ :=
  if va = invalidPa then none else t.find (va >>> pfnShift)

/-- `TLB_invalidate`. -/
def tlbInvalidate (t : Tlb) (va : ℕ) : Tlb :=
  if va = invalidPa then t
  else
    match t.find (va >>> pfnShift) with
    | some i => t.setEntry i { t.entries i with valid := false }
    | none => t

/-! ### What the search finds -/

namespace Tlb

theorem find_eq_some {t : Tlb} {vpn i : ℕ} (h : t.find vpn = some i) :
    i < tlbEntries ∧ (t.entries i).valid = true ∧ (t.entries i).vpn = vpn := by
  obtain ⟨-, hu, hp, -⟩ := firstIdx_eq_some.mp h
  rw [Bool.and_eq_true, beq_iff_eq] at hp
  exact ⟨by omega, hp.1, hp.2⟩

theorem find_eq_none {t : Tlb} {vpn : ℕ} (h : t.find vpn = none) {i : ℕ}
    (hi : i < tlbEntries) (hv : (t.entries i).valid = true) : (t.entries i).vpn ≠ vpn := by
  intro heq
  have hp := firstIdx_eq_none.mp h i (by omega) (by omega)
  simp [hv, heq] at hp

@[simp] theorem setEntry_count (t : Tlb) (i : ℕ) (e : TlbEntry) :
    (t.setEntry i e).count = t.count := rfl

@[simp] theorem setEntry_nextEvict (t : Tlb) (i : ℕ) (e : TlbEntry) :
    (t.setEntry i e).nextEvict = t.nextEvict := rfl

theorem setEntry_entries (t : Tlb) (i : ℕ) (e : TlbEntry) :
    (t.setEntry i e).entries = Function.update t.entries i e := rfl

@[simp] theorem advance_entries (t : Tlb) : t.advance.entries = t.entries := by
  unfold advance
  split <;> rfl

end Tlb

/-! ### Coherence with a page map -/

/-- The buffer is coherent with the page map `map` (page number to entry, `0` when
unmapped). -/
structure TlbOk (map : ℕ → ℕ) (t : Tlb) : Prop where
  count_le : t.count ≤ tlbEntries
  nextEvict_lt : t.nextEvict < tlbEntries
  /-- The slots at or above `count` have never been filled. -/
  unused : ∀ i, t.count ≤ i → (t.entries i).valid = false
  /-- A valid entry agrees with the page map. -/
  coherent : ∀ i, (t.entries i).valid = true →
    (t.entries i).pte = map (t.entries i).vpn ∧ map (t.entries i).vpn ≠ 0
  /-- A page has at most one valid entry. -/
  unique : ∀ i j, (t.entries i).valid = true → (t.entries j).valid = true →
    (t.entries i).vpn = (t.entries j).vpn → i = j

theorem TlbOk.empty (map : ℕ → ℕ) : TlbOk map Tlb.empty where
  count_le := by decide
  nextEvict_lt := by decide
  unused := fun _ _ => rfl
  coherent := fun _ h => absurd h (by simp [Tlb.empty])
  unique := fun _ _ h => absurd h (by simp [Tlb.empty])

variable {map map' : ℕ → ℕ} {t : Tlb}

/-- A valid entry sits in a slot below `count`. -/
theorem TlbOk.lt_count (h : TlbOk map t) {i : ℕ} (hv : (t.entries i).valid = true) :
    i < t.count := by
  by_contra hge
  rw [h.unused i (by omega)] at hv
  exact absurd hv (by decide)

/-- Coherence only depends on the map at the pages that have a valid entry. -/
theorem TlbOk.congr_map (h : TlbOk map t)
    (hm : ∀ i, (t.entries i).valid = true → map' (t.entries i).vpn = map (t.entries i).vpn) :
    TlbOk map' t where
  count_le := h.count_le
  nextEvict_lt := h.nextEvict_lt
  unused := h.unused
  coherent := fun i hv => by rw [hm i hv]; exact h.coherent i hv
  unique := h.unique

/-- A page without mapping has no valid entry, so mapping it keeps the buffer coherent. -/
theorem TlbOk.map_new (h : TlbOk map t) {v pa : ℕ} (h0 : map v = 0) :
    TlbOk (Function.update map v pa) t := by
  refine h.congr_map fun i hv => Function.update_of_ne ?_ _ _
  rintro heq
  exact (h.coherent i hv).2 (by rw [heq]; exact h0)

/-- A hit returns the entry the page map holds. -/
theorem TlbOk.find_pte (h : TlbOk map t) {vpn i : ℕ} (hf : t.find vpn = some i) :
    (t.entries i).pte = map vpn ∧ map vpn ≠ 0 := by
  obtain ⟨-, hv, hvpn⟩ := Tlb.find_eq_some hf
  rw [← hvpn]
  exact h.coherent i hv

theorem TlbOk.victim_lt (h : TlbOk map t) : t.victim < tlbEntries := by
  unfold Tlb.victim
  split
  · assumption
  · exact h.nextEvict_lt

theorem TlbOk.advance_bounds (h : TlbOk map t) :
    t.advance.count ≤ tlbEntries ∧ t.advance.nextEvict < tlbEntries ∧
      t.count ≤ t.advance.count ∧ t.victim < t.advance.count := by
  have h1 := h.count_le
  have h2 := h.nextEvict_lt
  have h3 : (t.nextEvict + 1) % tlbEntries < tlbEntries := Nat.mod_lt _ (by decide)
  unfold Tlb.advance Tlb.victim
  split
  · dsimp only; omega
  · dsimp only; omega

/-- What one `TLB_add` does: nothing at a refused address, an in-place update of the
page's valid entry, or a new entry in the victim slot. -/
theorem tlbAdd_cases (t : Tlb) (va pa : ℕ) :
    ((va = 0 ∨ pa = invalidPa) ∧ (tlbAdd t va pa).1 = t) ∨
    (∃ i, t.find (va >>> pfnShift) = some i ∧
      (tlbAdd t va pa).1
        = t.setEntry i { t.entries i with pte := pa, pfn := pa >>> pfnShift }) ∨
    (va ≠ 0 ∧ pa ≠ invalidPa ∧ t.find (va >>> pfnShift) = none ∧
      (tlbAdd t va pa).1 = t.advance.setEntry t.victim
        { vpn := va >>> pfnShift, pfn := pa >>> pfnShift, pte := pa, valid := true }) := by
  unfold tlbAdd
  by_cases hva : va = 0
  · rw [if_pos hva]
    exact Or.inl ⟨Or.inl hva, rfl⟩
  rw [if_neg hva]
  by_cases hpa : pa = invalidPa
  · rw [if_pos hpa]
    exact Or.inl ⟨Or.inr hpa, rfl⟩
  rw [if_neg hpa]
  cases hf : t.find (va >>> pfnShift) with
  | some i => exact Or.inr (Or.inl ⟨i, rfl, by simp only [hf]⟩)
  | none => exact Or.inr (Or.inr ⟨hva, hpa, rfl, by simp only [hf]⟩)

/-- A page without an entry gets the victim slot. -/
theorem tlbAdd_of_find_none {va pa : ℕ} (hva : va ≠ 0) (hpa : pa ≠ invalidPa)
    (hf : t.find (va >>> pfnShift) = none) :
    (tlbAdd t va pa).1 = t.advance.setEntry t.victim
      { vpn := va >>> pfnShift, pfn := pa >>> pfnShift, pte := pa, valid := true } := by
  obtain ⟨h | h, -⟩ | ⟨i, hi, -⟩ | ⟨-, -, -, he⟩ := tlbAdd_cases t va pa
  · exact absurd h hva
  · exact absurd h hpa
  · rw [hf] at hi
    exact absurd hi (by simp)
  · exact he

/-- Rewriting the valid entry of a page with the value the page map holds. -/
theorem TlbOk.refresh (h : TlbOk map t) {vpn pa pfn i : ℕ} (hf : t.find vpn = some i)
    (hpa : map vpn = pa) : TlbOk map (t.setEntry i { t.entries i with pte := pa, pfn := pfn }) := by
  obtain ⟨hi, hv, hvpn⟩ := Tlb.find_eq_some hf
  set t' := t.setEntry i { t.entries i with pte := pa, pfn := pfn } with ht'
  -- only the two address fields of slot `i` change
  have key : ∀ j, (t'.entries j).valid = (t.entries j).valid ∧
      (t'.entries j).vpn = (t.entries j).vpn := by
    intro j
    rw [ht', Tlb.setEntry_entries]
    by_cases hj : j = i
    · subst hj; simp
    · simp [Function.update_of_ne hj]
  refine ⟨h.count_le, h.nextEvict_lt, fun j hj => ?_, fun j hj => ?_, fun j k hj hk he => ?_⟩
  · rw [(key j).1]; exact h.unused j hj
  · rw [(key j).1] at hj
    rw [(key j).2]
    refine ⟨?_, (h.coherent j hj).2⟩
    by_cases hji : j = i
    · subst hji
      rw [hvpn, hpa, ht', Tlb.setEntry_entries, Function.update_self]
    · rw [ht', Tlb.setEntry_entries, Function.update_of_ne hji]
      exact (h.coherent j hj).1
  · rw [(key j).1] at hj
    rw [(key k).1] at hk
    rw [(key j).2, (key k).2] at he
    exact h.unique j k hj hk he

/-- A new entry for a page that has none, put in the victim slot. -/
theorem TlbOk.insert (h : TlbOk map t) {e : TlbEntry} (hf : t.find e.vpn = none)
    (hpte : e.pte = map e.vpn) (h0 : map e.vpn ≠ 0) :
    TlbOk map (t.advance.setEntry t.victim e) := by
  obtain ⟨hb1, hb2, hb3, hb4⟩ := h.advance_bounds
  -- the page had no valid entry, so the new one is its only one
  have hne : ∀ j, (t.entries j).valid = true → (t.entries j).vpn ≠ e.vpn :=
    fun j hj => Tlb.find_eq_none hf (lt_of_lt_of_le (h.lt_count hj) h.count_le) hj
  have hent : (t.advance.setEntry t.victim e).entries = Function.update t.entries t.victim e := by
    rw [Tlb.setEntry_entries, Tlb.advance_entries]
  refine ⟨hb1, hb2, fun j hj => ?_, fun j hj => ?_, fun j k hj hk he => ?_⟩
  · rw [Tlb.setEntry_count] at hj
    rw [hent, Function.update_of_ne (by omega)]
    exact h.unused j (by omega)
  · rw [hent] at hj ⊢
    by_cases hjv : j = t.victim
    · subst hjv
      rw [Function.update_self]
      exact ⟨hpte, h0⟩
    · rw [Function.update_of_ne hjv] at hj ⊢
      exact h.coherent j hj
  · rw [hent] at hj hk he
    by_cases hjv : j = t.victim
    · by_cases hkv : k = t.victim
      · rw [hjv, hkv]
      · subst hjv
        rw [Function.update_self, Function.update_of_ne hkv] at he
        rw [Function.update_of_ne hkv] at hk
        exact absurd he.symm (hne k hk)
    · by_cases hkv : k = t.victim
      · subst hkv
        rw [Function.update_of_ne hjv, Function.update_self] at he
        rw [Function.update_of_ne hjv] at hj
        exact absurd he (hne j hj)
      · rw [Function.update_of_ne hjv] at hj he
        rw [Function.update_of_ne hkv] at hk he
        exact h.unique j k hj hk he

/-- `TLB_add` keeps the buffer coherent when the entry it is given is the page map's. -/
theorem TlbOk.add (h : TlbOk map t) {va pa : ℕ} (hpa : map (va >>> pfnShift) = pa)
    (h0 : pa ≠ 0) : TlbOk map (tlbAdd t va pa).1 := by
  obtain ⟨-, heq⟩ | ⟨i, hf, heq⟩ | ⟨-, -, hf, heq⟩ := tlbAdd_cases t va pa
  · rw [heq]; exact h
  · rw [heq]; exact h.refresh hf hpa
  · rw [heq]; exact h.insert hf hpa.symm (by rw [hpa]; exact h0)

/-- Dropping one valid entry and unmapping its page. -/
theorem TlbOk.drop (h : TlbOk map t) {vpn i : ℕ} (hf : t.find vpn = some i) :
    TlbOk (Function.update map vpn 0) (t.setEntry i { t.entries i with valid := false }) := by
  obtain ⟨hi, hv, hvpn⟩ := Tlb.find_eq_some hf
  set t' := t.setEntry i { t.entries i with valid := false } with ht'
  -- the surviving valid entries are the old ones other than slot `i`
  have key : ∀ j, (t'.entries j).valid = true →
      j ≠ i ∧ (t.entries j).valid = true ∧ t'.entries j = t.entries j := by
    intro j hj
    rw [ht', Tlb.setEntry_entries] at hj ⊢
    by_cases hji : j = i
    · subst hji
      rw [Function.update_self] at hj
      exact absurd hj (by simp)
    · rw [Function.update_of_ne hji] at hj ⊢
      exact ⟨hji, hj, rfl⟩
  refine ⟨h.count_le, h.nextEvict_lt, fun j hj => ?_, fun j hj => ?_, fun j k hj hk he => ?_⟩
  · rw [ht', Tlb.setEntry_entries]
    by_cases hji : j = i
    · subst hji; rw [Function.update_self]
    · rw [Function.update_of_ne hji]; exact h.unused j hj
  · obtain ⟨hji, hjv, heq⟩ := key j hj
    rw [heq, Function.update_of_ne]
    · exact h.coherent j hjv
    · exact fun hc => hji (h.unique j i hjv hv (hc.trans hvpn.symm))
  · obtain ⟨-, hjv, hje⟩ := key j hj
    obtain ⟨-, hkv, hke⟩ := key k hk
    rw [hje, hke] at he
    exact h.unique j k hjv hkv he

/-- `TLB_invalidate` removes the only valid entry of the page, so the buffer stays coherent
when the page is unmapped. At address `0xFFFFFFFF` it returns early, which is harmless only
when the last page has no valid entry. -/
theorem TlbOk.invalidate (h : TlbOk map t) {va : ℕ}
    (hva : va = invalidPa → t.find (va >>> pfnShift) = none) :
    TlbOk (Function.update map (va >>> pfnShift) 0) (tlbInvalidate t va) := by
  unfold tlbInvalidate
  cases hf : t.find (va >>> pfnShift) with
  | none =>
    rw [ite_self]
    refine h.congr_map fun i hv => Function.update_of_ne ?_ _ _
    exact Tlb.find_eq_none hf (lt_of_lt_of_le (h.lt_count hv) h.count_le) hv
  | some i =>
    rw [if_neg fun hc => absurd (hva hc) (by rw [hf]; simp)]
    exact h.drop hf

end MyVm
