import Cs416.Vm.Tlb

/-!
# The TLB is a FIFO

The look-aside buffer over whole histories of calls. A history is the list of its calls with
the latest one first, so a prefix of the run is a tail of the list and every notion below is a
recursion on it.

`TLB_add` numbers the new entries by two counters that take turns: `count` until the buffer is
full, then `next_evict`. `insertions` is the single number both stand for. The invariant
`Ring` says which insertion each valid slot holds: slot `i` holds an insertion `n` with
`n % TLB_ENTRIES = i` that is one of the last `TLB_ENTRIES`, and conversely an insertion that
recent, whose page was not invalidated since, is still in its slot. Two insertions of that
window never share a slot, which is why an invalidation may leave a hole behind that neither
counter knows about.
-/

open Function

namespace MyVm

/-! ### Histories of calls -/

/-- One call on the buffer. -/
inductive TlbOp
  | add (va pa : ℕ)
  | check (va : ℕ)
  | invalidate (va : ℕ)

/-- The effect of a call. `TLB_check` only reads. -/
def TlbOp.apply (t : Tlb) : TlbOp → Tlb
  | add va pa => (tlbAdd t va pa).1
  | check _ => t
  | invalidate va => tlbInvalidate t va

/-- The arguments of a `TLB_add` are neither the null address, nor `0xFFFFFFFF`, nor an
invalid frame. -/
def TlbOp.Proper : TlbOp → Prop
  | add va pa => va ≠ 0 ∧ va ≠ invalidPa ∧ pa ≠ invalidPa
  | check _ => True
  | invalidate _ => True

instance : DecidablePred TlbOp.Proper
  | .add va pa => inferInstanceAs (Decidable (va ≠ 0 ∧ va ≠ invalidPa ∧ pa ≠ invalidPa))
  | .check _ => inferInstanceAs (Decidable True)
  | .invalidate _ => inferInstanceAs (Decidable True)

/-- The buffer after a history, which starts at the initial buffer. -/
def tlbAfter : List TlbOp → Tlb
  | [] => Tlb.empty
  | op :: ops => op.apply (tlbAfter ops)

/-- The number of `TLB_add` calls that did not find their page already valid. -/
def insertions : List TlbOp → ℕ
  | [] => 0
  | .add va _ :: ops =>
    if (tlbAfter ops).find (va >>> pfnShift) = none then insertions ops + 1 else insertions ops
  | _ :: ops => insertions ops

/-- The number of the latest insertion of a page, if it has not been invalidated since. An
invalidation at `0xFFFFFFFF` is refused and invalidates nothing. -/
def insertedAt (vpn : ℕ) : List TlbOp → Option ℕ
  | [] => none
  | .add va _ :: ops =>
    if (tlbAfter ops).find (va >>> pfnShift) = none ∧ va >>> pfnShift = vpn then
      some (insertions ops)
    else insertedAt vpn ops
  | .check _ :: ops => insertedAt vpn ops
  | .invalidate va :: ops =>
    if va ≠ invalidPa ∧ va >>> pfnShift = vpn then none else insertedAt vpn ops

/-- The frame address the latest `TLB_add` for a page was given. -/
def latestPa (vpn : ℕ) : List TlbOp → Option ℕ
  | [] => none
  | .add va pa :: ops => if va >>> pfnShift = vpn then some pa else latestPa vpn ops
  | _ :: ops => latestPa vpn ops

/-- The ring of the last `TLB_ENTRIES` insertions, of which `total` took place: `at? v` is the
number of the insertion of page `v` and `pa? v` its latest frame address. -/
structure Ring (total : ℕ) (at? : ℕ → Option ℕ) (pa? : ℕ → Option ℕ) (t : Tlb) : Prop where
  count : t.count = min total tlbEntries
  nextEvict : t.nextEvict = (total - tlbEntries) % tlbEntries
  /-- The slots at or above `count` have never been filled. -/
  unused : ∀ i, t.count ≤ i → (t.entries i).valid = false
  /-- A valid slot holds the insertion of its page, which is recent. -/
  holds : ∀ i, (t.entries i).valid = true → ∃ n, at? (t.entries i).vpn = some n ∧
    total ≤ n + tlbEntries ∧ n % tlbEntries = i ∧
      pa? (t.entries i).vpn = some (t.entries i).pte
  /-- Insertions are numbered from zero. -/
  lt : ∀ v n, at? v = some n → n < total
  /-- A recent insertion is in its slot. -/
  kept : ∀ v n, at? v = some n → total ≤ n + tlbEntries →
    (t.entries (n % tlbEntries)).valid = true ∧ (t.entries (n % tlbEntries)).vpn = v

namespace Ring

variable {total : ℕ} {at? pa? : ℕ → Option ℕ} {t : Tlb}

theorem empty : Ring 0 (fun _ => none) (fun _ => none) Tlb.empty where
  count := rfl
  nextEvict := rfl
  unused _ _ := rfl
  holds _ h := absurd h (by simp [Tlb.empty])
  lt _ _ h := absurd h (by simp)
  kept _ _ h := absurd h (by simp)

/-- The two counters join: the next insertion takes the slot of its own number. -/
theorem victim (h : Ring total at? pa? t) : t.victim = total % tlbEntries := by
  rw [Tlb.victim, h.count, h.nextEvict]
  simp only [tlbEntries]
  split_ifs <;> omega

theorem advance_count (h : Ring total at? pa? t) :
    t.advance.count = min (total + 1) tlbEntries := by
  have hc := h.count
  rw [Tlb.advance]
  split_ifs with hlt
  · change t.count + 1 = _
    omega
  · change t.count = _
    omega

theorem advance_nextEvict (h : Ring total at? pa? t) :
    t.advance.nextEvict = (total + 1 - tlbEntries) % tlbEntries := by
  have hc := h.count
  rw [Tlb.advance]
  split_ifs with hlt
  · change t.nextEvict = _
    rw [h.nextEvict, Nat.sub_eq_zero_of_le (by omega), Nat.sub_eq_zero_of_le (by omega)]
  · change (t.nextEvict + 1) % tlbEntries = _
    rw [h.nextEvict, Nat.mod_add_mod, ← Nat.sub_add_comm (by omega)]

/-- A valid slot is one of the buffer's. -/
theorem slot_lt (h : Ring total at? pa? t) {i : ℕ} (hv : (t.entries i).valid = true) :
    i < tlbEntries := by
  obtain ⟨n, -, -, hi, -⟩ := h.holds i hv
  rw [← hi]
  exact Nat.mod_lt _ (by decide)

/-- No two valid slots carry the same page. -/
theorem unique (h : Ring total at? pa? t) {i j : ℕ} (hi : (t.entries i).valid = true)
    (hj : (t.entries j).valid = true) (he : (t.entries i).vpn = (t.entries j).vpn) : i = j := by
  obtain ⟨n, hn, -, hni, -⟩ := h.holds i hi
  obtain ⟨m, hm, -, hmj, -⟩ := h.holds j hj
  rw [he, hm] at hn
  obtain rfl := Option.some.inj hn
  exact hni.symm.trans hmj

/-- The search finds a page exactly when its insertion is a recent one. -/
theorem find_isSome (h : Ring total at? pa? t) (v : ℕ) :
    (t.find v).isSome ↔ ∃ n, at? v = some n ∧ total ≤ n + tlbEntries := by
  constructor
  · intro hs
    obtain ⟨i, hf⟩ := Option.isSome_iff_exists.mp hs
    obtain ⟨-, hv, rfl⟩ := Tlb.find_eq_some hf
    obtain ⟨n, hn, hr, -, -⟩ := h.holds i hv
    exact ⟨n, hn, hr⟩
  · rintro ⟨n, hn, hr⟩
    obtain ⟨hv, hvpn⟩ := h.kept v n hn hr
    by_contra hnone
    exact Tlb.find_eq_none (Option.not_isSome_iff_eq_none.mp hnone)
      (Nat.mod_lt _ (by decide)) hv hvpn

/-- The entry a search finds carries the latest frame address. -/
theorem find_pte (h : Ring total at? pa? t) {v i : ℕ} (hf : t.find v = some i) :
    pa? v = some (t.entries i).pte := by
  obtain ⟨-, hv, rfl⟩ := Tlb.find_eq_some hf
  obtain ⟨n, -, -, -, hpa⟩ := h.holds i hv
  exact hpa

/-- **Insertion** of a page the buffer does not hold: it takes the slot of its number, which
is the slot of the one insertion that now falls out of the window. -/
theorem insert (h : Ring total at? pa? t) {v pa pfn : ℕ} (hf : t.find v = none) :
    Ring (total + 1) (update at? v (some total)) (update pa? v (some pa))
      (t.advance.setEntry t.victim { vpn := v, pfn := pfn, pte := pa, valid := true }) := by
  have hent : (t.advance.setEntry t.victim
      { vpn := v, pfn := pfn, pte := pa, valid := true }).entries
        = update t.entries (total % tlbEntries)
            { vpn := v, pfn := pfn, pte := pa, valid := true } := by
    rw [Tlb.setEntry_entries, Tlb.advance_entries, h.victim]
  have hother : ∀ i, (t.entries i).valid = true → (t.entries i).vpn ≠ v :=
    fun i hv => Tlb.find_eq_none hf (h.slot_lt hv) hv
  refine ⟨h.advance_count, h.advance_nextEvict, fun i hi => ?_, fun i hi => ?_,
    fun w n hn => ?_, fun w n hn hr => ?_⟩
  · -- the new entry is below the new `count`
    rw [Tlb.setEntry_count, h.advance_count] at hi
    rw [hent, update_of_ne]
    · exact h.unused i (by rw [h.count]; omega)
    · simp only [tlbEntries] at hi ⊢
      omega
  · rw [hent] at hi ⊢
    by_cases his : i = total % tlbEntries
    · rw [his, update_self]
      exact ⟨total, update_self .., Nat.add_le_add_left (by decide) _, rfl, update_self ..⟩
    · rw [update_of_ne his] at hi ⊢
      obtain ⟨n, hn, hr, hni, hpa⟩ := h.holds i hi
      rw [update_of_ne (hother i hi), update_of_ne (hother i hi)]
      refine ⟨n, hn, ?_, hni, hpa⟩
      -- the only insertion that becomes old is the one in the slot just taken
      by_contra hold
      have hlast : total = n + tlbEntries := by omega
      rw [hlast, Nat.add_mod_right] at his
      exact his hni.symm
  · by_cases hw : w = v
    · rw [hw, update_self] at hn
      obtain rfl := Option.some.inj hn
      exact Nat.lt_succ_self _
    · rw [update_of_ne hw] at hn
      exact Nat.lt_succ_of_lt (h.lt w n hn)
  · rw [hent]
    by_cases hw : w = v
    · rw [hw, update_self] at hn
      obtain rfl := Option.some.inj hn
      rw [update_self]
      exact ⟨rfl, hw.symm⟩
    · rw [update_of_ne hw] at hn
      have hlt := h.lt w n hn
      have hne : n % tlbEntries ≠ total % tlbEntries := by
        simp only [tlbEntries] at hr ⊢
        omega
      rw [update_of_ne hne]
      exact h.kept w n hn (by omega)

/-- **An update in place** changes the frame address of the page and nothing else. -/
theorem rewrite (h : Ring total at? pa? t) {v pa pfn i : ℕ} (hf : t.find v = some i) :
    Ring total at? (update pa? v (some pa))
      (t.setEntry i { t.entries i with pte := pa, pfn := pfn }) := by
  obtain ⟨-, hv, hvpn⟩ := Tlb.find_eq_some hf
  -- slot `i` stays valid and keeps its page
  have hsame : ∀ j, ((t.setEntry i { t.entries i with pte := pa, pfn := pfn }).entries j).valid
        = (t.entries j).valid ∧
      ((t.setEntry i { t.entries i with pte := pa, pfn := pfn }).entries j).vpn
        = (t.entries j).vpn := by
    intro j
    rw [Tlb.setEntry_entries]
    by_cases hj : j = i
    · rw [hj, update_self]
      exact ⟨rfl, rfl⟩
    · rw [update_of_ne hj]
      exact ⟨rfl, rfl⟩
  refine ⟨h.count, h.nextEvict, fun j hj => ?_, fun j hj => ?_, h.lt, fun w n hn hr => ?_⟩
  · rw [(hsame j).1]
    exact h.unused j hj
  · rw [(hsame j).1] at hj
    rw [(hsame j).2]
    obtain ⟨n, hn, hr, hnj, hpa⟩ := h.holds j hj
    refine ⟨n, hn, hr, hnj, ?_⟩
    rw [Tlb.setEntry_entries]
    -- a page has one valid slot, so no other slot's address changes
    by_cases hji : j = i
    · rw [hji, hvpn, update_self, update_self]
    · rw [update_of_ne hji, update_of_ne]
      · exact hpa
      · exact fun hc => hji (h.unique hj hv (hc.trans hvpn.symm))
  · rw [(hsame _).1, (hsame _).2]
    exact h.kept w n hn hr

/-- **Invalidation** of a page leaves a hole: the counters and the other slots stay. -/
theorem drop (h : Ring total at? pa? t) {v i : ℕ} (hf : t.find v = some i) :
    Ring total (update at? v none) pa? (t.setEntry i { t.entries i with valid := false }) := by
  obtain ⟨-, hv, hvpn⟩ := Tlb.find_eq_some hf
  refine ⟨h.count, h.nextEvict, fun j hj => ?_, fun j hj => ?_, fun w n hn => ?_,
    fun w n hn hr => ?_⟩
  · rw [Tlb.setEntry_entries]
    by_cases hji : j = i
    · rw [hji, update_self]
    · rw [update_of_ne hji]
      exact h.unused j hj
  · rw [Tlb.setEntry_entries] at hj ⊢
    by_cases hji : j = i
    · rw [hji, update_self] at hj
      exact absurd hj (by simp)
    · rw [update_of_ne hji] at hj ⊢
      -- no other valid slot carries the page
      rw [update_of_ne fun hc => hji (h.unique hj hv (hc.trans hvpn.symm))]
      exact h.holds j hj
  · by_cases hw : w = v
    · rw [hw, update_self] at hn
      exact absurd hn (by simp)
    · rw [update_of_ne hw] at hn
      exact h.lt w n hn
  · by_cases hw : w = v
    · rw [hw, update_self] at hn
      exact absurd hn (by simp)
    · rw [update_of_ne hw] at hn
      obtain ⟨hkv, hkw⟩ := h.kept w n hn hr
      -- slot `n % TLB_ENTRIES` carries `w`, and slot `i` carries `v`
      have hne : n % tlbEntries ≠ i := by
        rintro rfl
        exact hw (hkw.symm.trans hvpn)
      rw [Tlb.setEntry_entries, update_of_ne hne]
      exact ⟨hkv, hkw⟩

/-- Invalidating a page that is not in the buffer forgets an insertion that is no longer
recent. -/
theorem forget (h : Ring total at? pa? t) {v : ℕ} (hf : t.find v = none) :
    Ring total (update at? v none) pa? t := by
  refine ⟨h.count, h.nextEvict, h.unused, fun i hi => ?_, fun w n hn => ?_, fun w n hn => ?_⟩
  · rw [update_of_ne (Tlb.find_eq_none hf (h.slot_lt hi) hi)]
    exact h.holds i hi
  · by_cases hw : w = v
    · rw [hw, update_self] at hn
      exact absurd hn (by simp)
    · rw [update_of_ne hw] at hn
      exact h.lt w n hn
  · by_cases hw : w = v
    · rw [hw, update_self] at hn
      exact absurd hn (by simp)
    · rw [update_of_ne hw] at hn
      exact h.kept w n hn

end Ring

/-! ### Every history keeps the ring -/

/-- The ring of a history. -/
def RingOf (ops : List TlbOp) : Prop :=
  Ring (insertions ops) (fun v => insertedAt v ops) (fun v => latestPa v ops) (tlbAfter ops)

theorem RingOf.add {ops : List TlbOp} {va pa : ℕ} (h : RingOf ops)
    (hp : (TlbOp.add va pa).Proper) : RingOf (.add va pa :: ops) := by
  obtain ⟨h0, -, hpa⟩ := hp
  have hpas : (fun v => latestPa v (.add va pa :: ops))
      = update (fun v => latestPa v ops) (va >>> pfnShift) (some pa) := by
    funext v
    rw [latestPa, update_apply]
    simp only [eq_comm]
  unfold RingOf
  rw [hpas]
  cases hf : (tlbAfter ops).find (va >>> pfnShift) with
  -- an insertion: `total` and the position of the page move on
  | none =>
    have hat : (fun v => insertedAt v (.add va pa :: ops))
        = update (fun v => insertedAt v ops) (va >>> pfnShift) (some (insertions ops)) := by
      funext v
      rw [insertedAt, update_apply]
      simp only [hf, true_and, eq_comm]
    rw [hat, insertions, if_pos hf, tlbAfter, TlbOp.apply, tlbAdd_of_find_none h0 hpa hf]
    exact Ring.insert h hf
  -- an update in place: the page keeps the position it had
  | some i =>
    have hat : (fun v => insertedAt v (.add va pa :: ops)) = fun v => insertedAt v ops := by
      funext v
      rw [insertedAt, if_neg (by simp [hf])]
    have hadd : (tlbAdd (tlbAfter ops) va pa).1 = (tlbAfter ops).setEntry i
        { (tlbAfter ops).entries i with pte := pa, pfn := pa >>> pfnShift } := by
      rw [tlbAdd, if_neg h0, if_neg hpa]
      simp only [hf]
    rw [hat, insertions, if_neg (by simp [hf]), tlbAfter, TlbOp.apply, hadd]
    exact Ring.rewrite h hf

theorem RingOf.invalidate {ops : List TlbOp} {va : ℕ} (h : RingOf ops) :
    RingOf (.invalidate va :: ops) := by
  unfold RingOf
  rw [tlbAfter, TlbOp.apply, tlbInvalidate]
  by_cases hva : va = invalidPa
  · -- the refused address changes neither the buffer nor what counts as inserted
    have hat : (fun v => insertedAt v (.invalidate va :: ops)) = fun v => insertedAt v ops := by
      funext v
      rw [insertedAt, if_neg (by simp [hva])]
    rw [hat, if_pos hva]
    exact h
  · have hat : (fun v => insertedAt v (.invalidate va :: ops))
        = update (fun v => insertedAt v ops) (va >>> pfnShift) none := by
      funext v
      rw [insertedAt, update_apply]
      simp only [ne_eq, hva, not_false_eq_true, true_and, eq_comm]
    rw [hat, if_neg hva]
    cases hf : (tlbAfter ops).find (va >>> pfnShift) with
    | none => exact Ring.forget h hf
    | some i => exact Ring.drop h hf

end MyVm
