import Cs416.Lib.LittleEndian

/-!
# A table of records in blocks

Records of `size` bytes are stored in blocks of `block` bytes, as many to a block as fit, with
nothing but padding behind the last one: record `i` lies in block `i / perBlock` of the table,
at `i % perBlock * size`. The block size need not be a multiple of the record size.

The table is a codec: `fetch_put_self` and `fetch_put_of_ne` are the two read-after-write
laws, `put_frame` says which bytes a write leaves alone, and `slotBlock_lt` that a region of
`⌈n / perBlock⌉` blocks holds the first `n` records.
-/

open ByteMem

namespace RecordTable

/-- The position of records of `size` bytes in blocks of `block` bytes. -/
structure Shape where
  block : ℕ
  size : ℕ
  pos : 0 < size
  fits : size ≤ block

variable (t : Shape)

/-- The records in a block. -/
def Shape.perBlock : ℕ := t.block / t.size

/-- The block of record `i`. -/
def Shape.slotBlock (i : ℕ) : ℕ := i / t.perBlock

/-- Its position in the block. -/
def Shape.slotOff (i : ℕ) : ℕ := i % t.perBlock * t.size

/-- The blocks that `n` records take. -/
def Shape.blocks (n : ℕ) : ℕ := (n + t.perBlock - 1) / t.perBlock

theorem Shape.perBlock_pos : 0 < t.perBlock := Nat.div_pos t.fits t.pos

/-- A record does not cross the end of its block. -/
theorem Shape.slotOff_le (i : ℕ) : t.slotOff i + t.size ≤ t.block := by
  have hmod : i % t.perBlock + 1 ≤ t.perBlock := Nat.mod_lt i t.perBlock_pos
  calc t.slotOff i + t.size = (i % t.perBlock + 1) * t.size := (Nat.succ_mul _ _).symm
    _ ≤ t.perBlock * t.size := Nat.mul_le_mul_right _ hmod
    _ ≤ t.block := Nat.div_mul_le_self _ _

/-- Two records of one block do not overlap. -/
theorem Shape.slotOff_disjoint {i j : ℕ} (hne : i ≠ j) (hblk : t.slotBlock i = t.slotBlock j) :
    t.slotOff i + t.size ≤ t.slotOff j ∨ t.slotOff j + t.size ≤ t.slotOff i := by
  have hmod : i % t.perBlock ≠ j % t.perBlock := by
    intro hmod
    apply hne
    rw [← Nat.div_add_mod i t.perBlock, ← Nat.div_add_mod j t.perBlock, hmod]
    exact congrArg (t.perBlock * · + j % t.perBlock) hblk
  have hstep : ∀ a b : ℕ, a < b → a * t.size + t.size ≤ b * t.size := fun a b hlt => by
    rw [← Nat.succ_mul]
    exact Nat.mul_le_mul_right _ hlt
  rcases Nat.lt_or_gt_of_ne hmod with hlt | hgt
  · exact .inl (hstep _ _ hlt)
  · exact .inr (hstep _ _ hgt)

/-- The first `n` records lie in the first `⌈n / perBlock⌉` blocks. -/
theorem Shape.slotBlock_lt {i n : ℕ} (h : i < n) : t.slotBlock i < t.blocks n := by
  have hpos := t.perBlock_pos
  have hle : i + t.perBlock ≤ n + t.perBlock - 1 := by omega
  calc t.slotBlock i < i / t.perBlock + 1 := Nat.lt_succ_self _
    _ = (i + t.perBlock) / t.perBlock := (Nat.add_div_right i hpos).symm
    _ ≤ t.blocks n := Nat.div_le_div_right hle

section Codec

variable {t}

/-- The record that starts at block `base`. -/
def fetch (t : Shape) (disk : ℕ → Bytes) (base i : ℕ) : Bytes :=
  window (disk (base + t.slotBlock i)) (t.slotOff i) t.size

/-- Store a record. -/
def put (t : Shape) (disk : ℕ → Bytes) (base i : ℕ) (v : Bytes) : ℕ → Bytes :=
  Function.update disk (base + t.slotBlock i)
    (memcpy (disk (base + t.slotBlock i)) (t.slotOff i) v t.size)

/-- What was stored is read back. -/
theorem fetch_put_self (disk : ℕ → Bytes) (base i : ℕ) (v : Bytes) :
    fetch t (put t disk base i v) base i = window v 0 t.size := by
  rw [fetch, put, Function.update_self, window_memcpy_self]

/-- Another record is as it was. -/
theorem fetch_put_of_ne (disk : ℕ → Bytes) (base : ℕ) {i j : ℕ} (hne : j ≠ i) (v : Bytes) :
    fetch t (put t disk base i v) base j = fetch t disk base j := by
  rw [fetch, fetch, put]
  by_cases hblk : t.slotBlock j = t.slotBlock i
  · rw [hblk, Function.update_self, window_memcpy_of_disjoint _ _ (t.slotOff_disjoint hne hblk)]
  · rw [Function.update_of_ne fun h => hblk (Nat.add_left_cancel h)]

/-- The bytes outside the record are as they were. -/
theorem put_frame (disk : ℕ → Bytes) (base i : ℕ) (v : Bytes) {b x : ℕ}
    (h : ¬ (b = base + t.slotBlock i ∧ t.slotOff i ≤ x ∧ x < t.slotOff i + t.size)) :
    put t disk base i v b x = disk b x := by
  rw [put]
  by_cases hb : b = base + t.slotBlock i
  · rw [hb, Function.update_self]
    exact if_neg fun hx => h ⟨hb, hx⟩
  · rw [Function.update_of_ne hb]

end Codec

end RecordTable
