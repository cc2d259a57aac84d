import Cs416.Lib.Bitmap
import Cs416.Lib.Scan
import Mathlib.Data.Nat.Bitwise

/-!
# Constants, macros and bit functions

The part of `my_vm.h` that the default build selects (`PGSIZE == 4096`), and the three bit
functions of `my_vm.c`. Addresses and table entries are 32-bit words, represented by their
value; every place where the C arithmetic can leave that range reduces modulo `2 ^ 32`.

The lemmas turn shifts and masks into division and remainder, the form in which `omega`
can use them.
-/

open ByteMem

namespace MyVm

/-! ### Memory and paging configuration -/

abbrev maxMemSize : ℕ := 2 ^ 32
abbrev memSize : ℕ := 2 ^ 30
abbrev pgSize : ℕ := 4096

abbrev pdxShift : ℕ := 22
abbrev ptxShift : ℕ := 12
abbrev pxMask : ℕ := 0x3FF
abbrev offMask : ℕ := 0xFFF
abbrev pfnShift : ℕ := 12

/-- `num_phys_pages` after `set_physical_mem`. -/
abbrev numPhysPages : ℕ := memSize / pgSize
/-- `num_virt_pages` after `set_physical_mem`. -/
abbrev numVirtPages : ℕ := maxMemSize / pgSize

/-- `INVALID_PA`, which is also the address `TLB_check` and `TLB_invalidate` refuse. -/
abbrev invalidPa : ℕ := 2 ^ 32 - 1

abbrev tlbEntries : ℕ := 512

/-- `PDX(va)`, the page-directory index. -/
def pdx (va : ℕ) : ℕ := (va >>> pdxShift) &&& pxMask

/-- `PTX(va)`, the page-table index. -/
def ptx (va : ℕ) : ℕ := (va >>> ptxShift) &&& pxMask

/-- `OFF(va)`, the offset in the page. -/
def off (va : ℕ) : ℕ := va &&& offMask

/-- Conversion of a C `int` or unsigned expression to `uint32_t`. -/
def u32 (z : ℤ) : ℕ := (z % 2 ^ 32).toNat

/-- Conversion of a `uint32_t` to `int`. -/
def toInt (n : ℕ) : ℤ := Int.bmod n (2 ^ 32)

theorem shiftRight_12 (a : ℕ) : a >>> 12 = a / 4096 := Nat.shiftRight_eq_div_pow a 12

theorem pdx_eq {va : ℕ} (h : va < 2 ^ 32) : pdx va = va / 4096 / 1024 := by
  rw [pdx, Nat.shiftRight_eq_div_pow, show pxMask = 2 ^ 10 - 1 from rfl,
    Nat.and_two_pow_sub_one_eq_mod, show pdxShift = 22 from rfl]
  omega

theorem ptx_eq (va : ℕ) : ptx va = va / 4096 % 1024 := by
  rw [ptx, Nat.shiftRight_eq_div_pow, show pxMask = 2 ^ 10 - 1 from rfl,
    Nat.and_two_pow_sub_one_eq_mod, show ptxShift = 12 from rfl]

theorem off_eq (va : ℕ) : off va = va % 4096 := by
  rw [off, show offMask = 2 ^ 12 - 1 from rfl, Nat.and_two_pow_sub_one_eq_mod]

theorem u32_lt (z : ℤ) : u32 z < 2 ^ 32 := by
  unfold u32
  omega

theorem u32_toInt (n : ℕ) : u32 (toInt n) = n % 2 ^ 32 := by
  unfold u32 toInt
  rw [show (2 ^ 32 : ℤ) = ((2 ^ 32 : ℕ) : ℤ) from rfl, Int.bmod_emod]
  omega

/-- `get_bit`: the masked byte shifted down, so `0` or `1`. -/
def getBit (bitmap : Bytes) (index : ℕ) : ℕ :=
  ((bitmap (index / 8)).toNat &&& 1 <<< (index % 8)) >>> (index % 8)

/-- `set_bit`. -/
def setBit (bitmap : Bytes) (index : ℕ) : Bytes :=
  storeByte bitmap (index / 8) (setMask (bitmap (index / 8)) (index % 8))

/-- `clear_bit`. -/
def clearBit (bitmap : Bytes) (index : ℕ) : Bytes :=
  storeByte bitmap (index / 8) (clearMask (bitmap (index / 8)) (index % 8))

theorem getBit_eq (bitmap : Bytes) (index : ℕ) :
    getBit bitmap index = (bit bitmap index).toNat := by
  rw [getBit, bit, Nat.one_shiftLeft, Nat.and_two_pow, Nat.shiftRight_eq_div_pow,
    Nat.mul_div_cancel _ (Nat.two_pow_pos _)]
  rfl

@[simp] theorem bit_setBit (bitmap : Bytes) (index : ℕ) :
    bit (setBit bitmap index) = Function.update (bit bitmap) index true :=
  bit_setByte bitmap index

@[simp] theorem bit_clearBit (bitmap : Bytes) (index : ℕ) :
    bit (clearBit bitmap index) = Function.update (bit bitmap) index false :=
  bit_clearByte bitmap index

end MyVm
