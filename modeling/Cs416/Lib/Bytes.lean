import Mathlib.Tactic

/-!
# Byte-addressed memory

A memory is a function from addresses to bytes. Words are read and written in
little-endian order, and `memset` / `memcpy` overwrite an interval. Every lemma is
about one of two situations: the read lies inside the interval that was written,
or it is disjoint from it.

`Agree m m' a n` says that two memories hold the same bytes on the interval of
length `n` at `a`. It is the frame condition that callers carry instead of an
equation between memories.
-/

namespace ByteMem

/-- A byte-addressed memory, also used for a buffer that starts at index `0`. -/
abbrev Bytes := ℕ → UInt8

/-- The 32-bit little-endian word at address `a`. -/
def load32 (m : Bytes) (a : ℕ) : ℕ :=
  (m a).toNat + (m (a + 1)).toNat * 2 ^ 8 + (m (a + 2)).toNat * 2 ^ 16
    + (m (a + 3)).toNat * 2 ^ 24

/-- Overwrite the four bytes at `a` by the little-endian word `v`. -/
def store32 (m : Bytes) (a v : ℕ) : Bytes := fun x =>
  if x = a then UInt8.ofNat v
  else if x = a + 1 then UInt8.ofNat (v / 2 ^ 8)
  else if x = a + 2 then UInt8.ofNat (v / 2 ^ 16)
  else if x = a + 3 then UInt8.ofNat (v / 2 ^ 24)
  else m x

/-- Fill `n` bytes at `a` with `b`. -/
def memset (m : Bytes) (a : ℕ) (b : UInt8) (n : ℕ) : Bytes := fun x =>
  if a ≤ x ∧ x < a + n then b else m x

/-- Copy the first `n` bytes of `src` to address `a`. -/
def memcpy (m : Bytes) (a : ℕ) (src : Bytes) (n : ℕ) : Bytes := fun x =>
  if a ≤ x ∧ x < a + n then src (x - a) else m x

/-- The two memories hold the same bytes on `[a, a + n)`. -/
def Agree (m m' : Bytes) (a n : ℕ) : Prop :=
  ∀ x, a ≤ x → x < a + n → m' x = m x

theorem Agree.refl (m : Bytes) (a n : ℕ) : Agree m m a n := fun _ _ _ => rfl

theorem Agree.trans {m₁ m₂ m₃ : Bytes} {a n : ℕ} (h₁ : Agree m₁ m₂ a n)
    (h₂ : Agree m₂ m₃ a n) : Agree m₁ m₃ a n :=
  fun x hl hu => (h₂ x hl hu).trans (h₁ x hl hu)

theorem Agree.mono {m m' : Bytes} {a n b k : ℕ} (h : Agree m m' a n) (hl : a ≤ b)
    (hu : b + k ≤ a + n) : Agree m m' b k :=
  fun x h₁ h₂ => h x (by omega) (by omega)

theorem load32_lt (m : Bytes) (a : ℕ) : load32 m a < 2 ^ 32 := by
  have h0 := (m a).toNat_lt
  have h1 := (m (a + 1)).toNat_lt
  have h2 := (m (a + 2)).toNat_lt
  have h3 := (m (a + 3)).toNat_lt
  unfold load32
  omega

theorem load32_congr {m m' : Bytes} {a : ℕ} (h : Agree m m' a 4) :
    load32 m' a = load32 m a := by
  unfold load32
  rw [h a (by omega) (by omega), h (a + 1) (by omega) (by omega),
    h (a + 2) (by omega) (by omega), h (a + 3) (by omega) (by omega)]

theorem store32_of_disjoint (m : Bytes) {a v x : ℕ} (h : x < a ∨ a + 4 ≤ x) :
    store32 m a v x = m x := by
  unfold store32
  rw [if_neg (by omega), if_neg (by omega), if_neg (by omega), if_neg (by omega)]

@[simp] theorem load32_store32 (m : Bytes) (a v : ℕ) (hv : v < 2 ^ 32) :
    load32 (store32 m a v) a = v := by
  simp [load32, store32]
  omega

theorem agree_store32 (m : Bytes) {a v b n : ℕ} (h : b + n ≤ a ∨ a + 4 ≤ b) :
    Agree m (store32 m a v) b n :=
  fun x hl hu => store32_of_disjoint m (by omega)

theorem agree_memset (m : Bytes) {a n b k : ℕ} {c : UInt8} (h : b + k ≤ a ∨ a + n ≤ b) :
    Agree m (memset m a c n) b k :=
  fun x hl hu => if_neg (by omega)

theorem agree_memcpy (m : Bytes) {a n b k : ℕ} {src : Bytes} (h : b + k ≤ a ∨ a + n ≤ b) :
    Agree m (memcpy m a src n) b k :=
  fun x hl hu => if_neg (by omega)

theorem load32_memset_zero (m : Bytes) {a n b : ℕ} (hl : a ≤ b) (hu : b + 4 ≤ a + n) :
    load32 (memset m a 0 n) b = 0 := by
  unfold load32 memset
  rw [if_pos (by omega), if_pos (by omega), if_pos (by omega), if_pos (by omega)]
  rfl

theorem memcpy_apply (m : Bytes) {a n x : ℕ} {src : Bytes} (hl : a ≤ x) (hu : x < a + n) :
    memcpy m a src n x = src (x - a) :=
  if_pos ⟨hl, hu⟩

theorem memcpy_of_disjoint (m : Bytes) {a n x : ℕ} {src : Bytes} (h : x < a ∨ a + n ≤ x) :
    memcpy m a src n x = m x :=
  if_neg (by omega)

theorem memcpy_zero (m : Bytes) (a : ℕ) (src : Bytes) : memcpy m a src 0 = m :=
  funext fun _ => memcpy_of_disjoint m (by omega)

end ByteMem
