import Cs416.Lib.Bytes

/-!
# Little-endian fields of any width

`loadLe m a k` is the value of the `k` bytes at address `a`, least significant first, and
`storeLe m a k v` writes it. They are how a C `struct` in memory is read and written: a field
is an offset and a width. Two fields of one struct never overlap, so beside the round trip
(`loadLe_storeLe`) the lemma a caller needs is that a store elsewhere is invisible
(`loadLe_storeLe_of_disjoint`).

`window m a n` is the struct itself: the `n` bytes at `a`, moved to address `0` and
normalised to `0` outside.
-/

namespace ByteMem

/-- The little-endian value of the `k` bytes at `a`. -/
def loadLe (m : Bytes) (a : ℕ) : ℕ → ℕ
  | 0 => 0
  | k + 1 => (m a).toNat + 256 * loadLe m (a + 1) k

/-- Write the `k` low bytes of `v` at `a`. -/
def storeLe (m : Bytes) (a k v : ℕ) : Bytes := fun x =>
  if a ≤ x ∧ x < a + k then UInt8.ofNat (v / 256 ^ (x - a)) else m x

/-- The `n` bytes at `a`, from address `0` on. -/
def window (m : Bytes) (a n : ℕ) : Bytes := fun x => if x < n then m (a + x) else 0

theorem loadLe_congr {m m' : Bytes} {a k : ℕ} (h : Agree m m' a k) :
    loadLe m' a k = loadLe m a k := by
  induction k generalizing a with
  | zero => rfl
  | succ k ih =>
    rw [loadLe, loadLe, h a le_rfl (by omega), ih (h.mono (by omega) (by omega))]

theorem agree_storeLe (m : Bytes) {a k v b n : ℕ} (h : b + n ≤ a ∨ a + k ≤ b) :
    Agree m (storeLe m a k v) b n := by
  intro x hl hu
  exact if_neg (by omega)

theorem loadLe_storeLe_of_disjoint (m : Bytes) {a k v b n : ℕ} (h : b + n ≤ a ∨ a + k ≤ b) :
    loadLe (storeLe m a k v) b n = loadLe m b n :=
  loadLe_congr (agree_storeLe m h)

/-- The bytes of a store, read one position further. -/
theorem storeLe_succ (m : Bytes) (a k v : ℕ) {x : ℕ} (h : a < x) :
    storeLe m a (k + 1) v x = storeLe m (a + 1) k (v / 256) x := by
  unfold storeLe
  by_cases hx : x < a + (k + 1)
  · rw [if_pos ⟨by omega, hx⟩, if_pos ⟨by omega, by omega⟩, Nat.div_div_eq_div_mul,
      show x - a = (x - (a + 1)) + 1 by omega, Nat.pow_succ']
  · rw [if_neg (by omega), if_neg (by omega)]

/-- A field keeps the low bytes of what is stored in it. -/
theorem loadLe_storeLe_mod (m : Bytes) (a k v : ℕ) :
    loadLe (storeLe m a k v) a k = v % 256 ^ k := by
  induction k generalizing a v with
  | zero => rw [loadLe, Nat.pow_zero, Nat.mod_one]
  | succ k ih =>
    have hrest : loadLe (storeLe m a (k + 1) v) (a + 1) k = v / 256 % 256 ^ k := by
      rw [← ih (a + 1) (v / 256)]
      refine loadLe_congr fun x hl _ => ?_
      exact storeLe_succ m a k v (by omega)
    have hfirst : (storeLe m a (k + 1) v a).toNat = v % 256 := by
      unfold storeLe
      rw [if_pos ⟨le_rfl, by omega⟩, Nat.sub_self, Nat.pow_zero, Nat.div_one]
      exact UInt8.toNat_ofNat'
    rw [loadLe, hrest, hfirst, Nat.pow_succ', Nat.mod_mul]

/-- The round trip of a field. -/
theorem loadLe_storeLe (m : Bytes) (a k : ℕ) {v : ℕ} (hv : v < 256 ^ k) :
    loadLe (storeLe m a k v) a k = v := by
  rw [loadLe_storeLe_mod, Nat.mod_eq_of_lt hv]

theorem loadLe_lt (m : Bytes) (a k : ℕ) : loadLe m a k < 256 ^ k := by
  induction k generalizing a with
  | zero => exact Nat.one_pos
  | succ k ih =>
    have h1 := (m a).toNat_lt
    have h2 := ih (a + 1)
    rw [loadLe, Nat.pow_succ']
    omega

theorem loadLe_zero (a k : ℕ) : loadLe (fun _ => 0) a k = 0 := by
  induction k generalizing a with
  | zero => rfl
  | succ k ih =>
    rw [loadLe, ih]
    rfl

/-- A field of a struct, read in the struct's own window. -/
theorem loadLe_window (m : Bytes) {a n b k : ℕ} (h : b + k ≤ n) :
    loadLe (window m a n) b k = loadLe m (a + b) k := by
  induction k generalizing b with
  | zero => rfl
  | succ k ih =>
    rw [loadLe, loadLe, ih (by omega), Nat.add_assoc a b 1]
    rw [window, if_pos (by omega)]

/-- The window on what was just copied there. -/
theorem window_memcpy_self (m src : Bytes) (a n : ℕ) :
    window (memcpy m a src n) a n = window src 0 n := by
  funext x
  unfold window
  by_cases hx : x < n
  · rw [if_pos hx, if_pos hx, memcpy_apply _ (by omega) (by omega), Nat.zero_add,
      Nat.add_sub_cancel_left]
  · rw [if_neg hx, if_neg hx]

/-- A window disjoint from a copy. -/
theorem window_memcpy_of_disjoint (m src : Bytes) {a n b k : ℕ} (h : b + k ≤ a ∨ a + n ≤ b) :
    window (memcpy m a src n) b k = window m b k := by
  funext x
  unfold window
  by_cases hx : x < k
  · rw [if_pos hx, if_pos hx, memcpy_of_disjoint _ (by omega)]
  · rw [if_neg hx, if_neg hx]

@[simp] theorem window_window (m : Bytes) (a n : ℕ) : window (window m a n) 0 n = window m a n := by
  funext x
  unfold window
  by_cases hx : x < n
  · rw [if_pos hx, if_pos hx, Nat.zero_add, if_pos hx]
  · rw [if_neg hx, if_neg hx]

end ByteMem
