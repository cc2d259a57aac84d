import Cs416.Lib.Bytes
import Mathlib.Logic.Function.Basic

/-!
# Bitmaps packed into bytes

Bit `i` of a bitmap lives at position `i % 8` of byte `i / 8`. The update lemmas are
stated for the whole bitmap at once: `bit (setBitAt b i) = Function.update (bit b) i true`,
so a caller that only looks at bits can forget about bytes.

`setMask` and `clearMask` are the byte-level updates. They are exposed because a
non-atomic update is a load of the byte followed by a later store of the masked value.
-/

namespace ByteMem

/-- Bit `i` of the bitmap `b`. -/
def bit (b : Bytes) (i : ℕ) : Bool := (b (i / 8)).toBitVec.getLsbD (i % 8)

/-- The byte `v` with bit `k` set. -/
def setMask (v : UInt8) (k : ℕ) : UInt8 := ⟨v.toBitVec ||| 1#8 <<< k⟩

/-- The byte `v` with bit `k` cleared. -/
def clearMask (v : UInt8) (k : ℕ) : UInt8 := ⟨v.toBitVec &&& ~~~(1#8 <<< k)⟩

/-- Store `v` into byte `k`. -/
def storeByte (b : Bytes) (k : ℕ) (v : UInt8) : Bytes := fun x => if x = k then v else b x

/-- The bits determine the bytes. -/
theorem eq_of_bit_eq {b b' : Bytes} (h : bit b = bit b') : b = b' := by
  funext k
  refine UInt8.toBitVec_inj.mp (BitVec.eq_of_getLsbD_eq fun j hj => ?_)
  have hbit := congrFun h (8 * k + j)
  unfold bit at hbit
  rwa [show (8 * k + j) / 8 = k by omega, show (8 * k + j) % 8 = j by omega] at hbit

theorem getLsbD_one_shiftLeft {k j : ℕ} (hk : k < 8) (hj : j < 8) :
    (1#8 <<< k).getLsbD j = decide (j = k) := by
  interval_cases k <;> interval_cases j <;> rfl

theorem getLsbD_setMask (v : UInt8) {k j : ℕ} (hk : k < 8) (hj : j < 8) :
    (setMask v k).toBitVec.getLsbD j = (decide (j = k) || v.toBitVec.getLsbD j) := by
  rw [setMask, BitVec.getLsbD_or, getLsbD_one_shiftLeft hk hj, Bool.or_comm]

theorem getLsbD_clearMask (v : UInt8) {k j : ℕ} (hk : k < 8) (hj : j < 8) :
    (clearMask v k).toBitVec.getLsbD j = (!decide (j = k) && v.toBitVec.getLsbD j) := by
  rw [clearMask, BitVec.getLsbD_and, BitVec.getLsbD_not, getLsbD_one_shiftLeft hk hj,
    Bool.and_comm]
  simp [hj]

theorem bit_setByte (b : Bytes) (i : ℕ) :
    bit (storeByte b (i / 8) (setMask (b (i / 8)) (i % 8)))
      = Function.update (bit b) i true := by
  funext j
  unfold bit storeByte
  by_cases hj : j = i
  · subst hj
    rw [if_pos rfl, getLsbD_setMask _ (Nat.mod_lt _ (by decide)) (Nat.mod_lt _ (by decide))]
    simp
  · rw [Function.update_of_ne hj]
    by_cases hb : j / 8 = i / 8
    · rw [if_pos hb, getLsbD_setMask _ (Nat.mod_lt _ (by decide)) (Nat.mod_lt _ (by decide)), hb]
      have hne : j % 8 ≠ i % 8 := by omega
      simp [hne]
    · rw [if_neg hb]

theorem bit_clearByte (b : Bytes) (i : ℕ) :
    bit (storeByte b (i / 8) (clearMask (b (i / 8)) (i % 8)))
      = Function.update (bit b) i false := by
  funext j
  unfold bit storeByte
  by_cases hj : j = i
  · subst hj
    rw [if_pos rfl, getLsbD_clearMask _ (Nat.mod_lt _ (by decide)) (Nat.mod_lt _ (by decide))]
    simp
  · rw [Function.update_of_ne hj]
    by_cases hb : j / 8 = i / 8
    · rw [if_pos hb, getLsbD_clearMask _ (Nat.mod_lt _ (by decide)) (Nat.mod_lt _ (by decide)),
        hb]
      have hne : j % 8 ≠ i % 8 := by omega
      simp [hne]
    · rw [if_neg hb]

end ByteMem
