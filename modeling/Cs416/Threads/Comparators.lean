import Mathlib.Order.Compare
import Cs416.Threads.Library

/-!
# The comparators of the heaps

`psjf_cmp` and `cfs_cmp` return the difference of two 64-bit fields as an `int`, which keeps the
low half of it. The sign survives for the differences of `Narrows` and for no others: `2 ^ 31`
turns negative, and `2 ^ 32` turns into a tie that is not broken by the `id` either. Where it
survives for all pairs of some threads, the comparators order these threads by the pairs of the
field and the `id` (`comparator_law_iff`), and that is a strict weak order because the pairs are
linearly ordered.
-/

namespace ThreadWorker

namespace Library

/-- An `int` has the sign of the difference that is stored in it: the low 32 bits of a positive
difference are positive as an `int`, and those of a negative one are negative. -/
def Narrows (d : ℤ) : Prop :=
  (0 < d → 0 < d % 2 ^ 32 ∧ d % 2 ^ 32 < 2 ^ 31) ∧ (d < 0 → 2 ^ 31 ≤ d % 2 ^ 32)

instance (d : ℤ) : Decidable (Narrows d) := inferInstanceAs (Decidable (_ ∧ _))

/-- The pair of a field and the `id`, in lexicographic order. -/
def pairKey (key : Tcb → ℤ) (tcb : TcbPtr → Tcb) (t : TcbPtr) : ℤ ×ₗ ℕ :=
  toLex (key (tcb t), (tcb t).id)

/-- **The comparator law** on the threads of `S`. -/
structure ComparatorLaw (tcb : TcbPtr → Tcb) (S : Set TcbPtr) : Prop where
  psjf : ∀ a ∈ S, ∀ b ∈ S, cmp (psjfCmp tcb a b) 0
    = cmp (pairKey Tcb.elapsedQuanta tcb a) (pairKey Tcb.elapsedQuanta tcb b)
  cfs : ∀ a ∈ S, ∀ b ∈ S, cmp (cfsCmp tcb a b) 0
    = cmp (pairKey Tcb.vruntime tcb a) (pairKey Tcb.vruntime tcb b)
  psjf_order : IsStrictWeakOrder S fun a b => psjfCmp tcb a b < 0
  cfs_order : IsStrictWeakOrder S fun a b => cfsCmp tcb a b < 0

section

variable {tcb : TcbPtr → Tcb} {key : Tcb → ℤ} {S : Set TcbPtr} {a b : TcbPtr} {d : ℤ}

/-! ### One difference -/

theorem toInt_eq (d : ℤ) :
    toInt d = if d % 2 ^ 32 < 2 ^ 31 then d % 2 ^ 32 else d % 2 ^ 32 - 2 ^ 32 := by
  rw [toInt, Int.bmod]
  norm_num

/-- Narrowing keeps the sign exactly of the differences that fit. -/
theorem cmp_toInt_iff : cmp (toInt d) 0 = cmp d 0 ↔ Narrows d := by
  rw [toInt_eq, Narrows]
  have hlo : 0 ≤ d % 2 ^ 32 := Int.emod_nonneg _ (by norm_num)
  have hhi : d % 2 ^ 32 < 2 ^ 32 := Int.emod_lt_of_pos _ (by norm_num)
  rcases lt_trichotomy d 0 with hd | rfl | hd
  · rw [(cmp_eq_lt_iff d 0).mpr hd, cmp_eq_lt_iff]
    constructor
    · intro h
      refine ⟨fun hpos => absurd hpos hd.not_gt, fun _ => ?_⟩
      split_ifs at h <;> omega
    · rintro ⟨-, hneg⟩
      have hge := hneg hd
      rw [if_neg (not_lt.mpr hge)]
      omega
  · exact iff_of_true rfl ⟨fun h => absurd h (lt_irrefl 0), fun h => absurd h (lt_irrefl 0)⟩
  · rw [(cmp_eq_gt_iff d 0).mpr hd, cmp_eq_gt_iff]
    constructor
    · intro h
      refine ⟨fun _ => ?_, fun hneg => absurd hneg hd.not_gt⟩
      split_ifs at h <;> omega
    · rintro ⟨hpos, -⟩
      obtain ⟨h1, h2⟩ := hpos hd
      rw [if_pos h2]
      exact h1

theorem narrows_of_abs_lt (h : |d| < 2 ^ 31) : Narrows d := by
  obtain ⟨hlo, hhi⟩ := abs_lt.mp h
  constructor <;> intro <;> omega

theorem cmp_sub (x y : ℤ) : cmp (x - y) 0 = cmp x y := by
  rcases lt_trichotomy x y with h | h | h
  · rw [(cmp_eq_lt_iff x y).mpr h, cmp_eq_lt_iff]
    omega
  · rw [(cmp_eq_eq_iff x y).mpr h, cmp_eq_eq_iff]
    omega
  · rw [(cmp_eq_gt_iff x y).mpr h, cmp_eq_gt_iff]
    omega

/-! ### One pair of threads -/

theorem cmp_pairKey_of_ne (h : key (tcb a) ≠ key (tcb b)) :
    cmp (pairKey key tcb a) (pairKey key tcb b) = cmp (key (tcb a)) (key (tcb b)) := by
  rcases h.lt_or_gt with hlt | hgt
  · rw [(cmp_eq_lt_iff _ _).mpr hlt, cmp_eq_lt_iff]
    exact Prod.Lex.toLex_lt_toLex.mpr (.inl hlt)
  · rw [(cmp_eq_gt_iff _ _).mpr hgt, cmp_eq_gt_iff]
    exact Prod.Lex.toLex_lt_toLex.mpr (.inl hgt)

theorem cmp_pairKey_of_eq (h : key (tcb a) = key (tcb b)) :
    cmp (pairKey key tcb a) (pairKey key tcb b) = cmp ((tcb a).id : ℤ) (tcb b).id := by
  rcases lt_trichotomy (tcb a).id (tcb b).id with hid | hid | hid
  · rw [(cmp_eq_lt_iff _ _).mpr (Int.ofNat_lt.mpr hid), cmp_eq_lt_iff]
    exact Prod.Lex.toLex_lt_toLex.mpr (.inr ⟨h, hid⟩)
  · rw [hid, (cmp_eq_eq_iff _ _).mpr rfl, cmp_eq_eq_iff, pairKey, pairKey, h, hid]
  · rw [(cmp_eq_gt_iff _ _).mpr (Int.ofNat_lt.mpr hid), cmp_eq_gt_iff]
    exact Prod.Lex.toLex_lt_toLex.mpr (.inr ⟨h.symm, hid⟩)

/-- A comparator has the sign of the pairs exactly when the difference of the fields fits. -/
theorem cmp_keyCmp_iff (key : Tcb → ℤ) (ha : (tcb a).id < 2 ^ 31) (hb : (tcb b).id < 2 ^ 31) :
    cmp (keyCmp key tcb a b) 0 = cmp (pairKey key tcb a) (pairKey key tcb b) ↔
      Narrows (key (tcb a) - key (tcb b)) := by
  by_cases heq : key (tcb a) = key (tcb b)
  · -- the tie is broken by the `id`s, whose difference always fits
    have hids : Narrows (((tcb a).id : ℤ) - (tcb b).id) := by
      refine narrows_of_abs_lt ?_
      rw [abs_lt]
      omega
    rw [keyCmp, if_neg (not_not.mpr heq), cmp_pairKey_of_eq heq, cmp_toInt_iff.mpr hids, cmp_sub,
      heq, sub_self]
    exact iff_of_true rfl (narrows_of_abs_lt (by decide))
  · rw [keyCmp, if_pos heq, cmp_pairKey_of_ne heq, ← cmp_sub (key (tcb a)), cmp_toInt_iff]

/-! ### All pairs of a set -/

/-- A comparator with the sign of a linear order is a strict weak order. -/
theorem isStrictWeakOrder_of_cmp {κ : Type*} [LinearOrder κ] {f : TcbPtr → TcbPtr → ℤ}
    {k : TcbPtr → κ} (h : ∀ a ∈ S, ∀ b ∈ S, cmp (f a b) 0 = cmp (k a) (k b)) :
    IsStrictWeakOrder S fun a b => f a b < 0 := by
  have hrel : (fun a b : S => f a b < 0) = fun a b : S => k a < k b := by
    funext a b
    rw [← cmp_eq_lt_iff, h a a.2 b b.2, cmp_eq_lt_iff]
  rw [hrel]
  exact
    { irrefl := fun a => lt_irrefl (k a)
      trans := fun _ _ _ => lt_trans
      incomp_trans := fun a b c hab hbc => by
        simp only [not_lt] at hab hbc ⊢
        exact ⟨hbc.1.trans hab.1, hab.2.trans hbc.2⟩ }

/-- **The comparators obey the law** on threads with `id`s below `2 ^ 31` exactly when the
differences of both fields fit into an `int`. -/
theorem comparator_law_iff (hid : ∀ t ∈ S, (tcb t).id < 2 ^ 31) :
    ComparatorLaw tcb S ↔ ∀ a ∈ S, ∀ b ∈ S,
      Narrows ((tcb a).elapsedQuanta - (tcb b).elapsedQuanta) ∧
        Narrows ((tcb a).vruntime - (tcb b).vruntime) := by
  constructor
  · intro h a ha b hb
    exact ⟨(cmp_keyCmp_iff _ (hid a ha) (hid b hb)).mp (h.psjf a ha b hb),
      (cmp_keyCmp_iff _ (hid a ha) (hid b hb)).mp (h.cfs a ha b hb)⟩
  · intro h
    have hpsjf : ∀ a ∈ S, ∀ b ∈ S, cmp (psjfCmp tcb a b) 0
        = cmp (pairKey Tcb.elapsedQuanta tcb a) (pairKey Tcb.elapsedQuanta tcb b) :=
      fun a ha b hb => (cmp_keyCmp_iff _ (hid a ha) (hid b hb)).mpr (h a ha b hb).1
    have hcfs : ∀ a ∈ S, ∀ b ∈ S, cmp (cfsCmp tcb a b) 0
        = cmp (pairKey Tcb.vruntime tcb a) (pairKey Tcb.vruntime tcb b) :=
      fun a ha b hb => (cmp_keyCmp_iff _ (hid a ha) (hid b hb)).mpr (h a ha b hb).2
    exact ⟨hpsjf, hcfs, isStrictWeakOrder_of_cmp hpsjf, isStrictWeakOrder_of_cmp hcfs⟩

end

/-- The threads `0` and `1`, of which the second has run for `v` microseconds. -/
def ranFor (v : ℤ) (t : TcbPtr) : Tcb :=
  if t = 1 then { Tcb.zero with id := 1, vruntime := v } else Tcb.zero

/-- Two threads that are less than 36 minutes of CPU time apart. -/
theorem comparator_law_close : (∀ t ∈ ({0, 1} : Set TcbPtr), (ranFor (2 ^ 31 - 1) t).id < 2 ^ 31) ∧
    ComparatorLaw (ranFor (2 ^ 31 - 1)) {0, 1} := by
  have hid : ∀ t ∈ ({0, 1} : Set TcbPtr), (ranFor (2 ^ 31 - 1) t).id < 2 ^ 31 := by
    rintro t (rfl | rfl) <;> decide
  refine ⟨hid, (comparator_law_iff hid).mpr ?_⟩
  rintro a (rfl | rfl) b (rfl | rfl) <;> decide

/-- At `2 ^ 31` microseconds the thread that has run overtakes the one that has not. -/
theorem vruntime_overtakes : ¬ ∀ (tcb : TcbPtr → Tcb) (S : Set TcbPtr),
    (∀ t ∈ S, (tcb t).id < 2 ^ 31 ∧ 0 ≤ (tcb t).elapsedQuanta ∧ (tcb t).elapsedQuanta < 2 ^ 63 ∧
      0 ≤ (tcb t).vruntime ∧ (tcb t).vruntime < 2 ^ 63) → ComparatorLaw tcb S := by
  intro h
  have hlaw : ComparatorLaw (ranFor (2 ^ 31)) {0, 1} := by
    refine h _ _ ?_
    rintro t (rfl | rfl) <;> decide
  have hcmp := hlaw.cfs 1 (.inr rfl) 0 (.inl rfl)
  have hneg : cmp (cfsCmp (ranFor (2 ^ 31)) 1 0) 0 = .lt := by decide
  rw [hneg, eq_comm, cmp_eq_lt_iff] at hcmp
  exact absurd hcmp (by decide)

end Library

end ThreadWorker
