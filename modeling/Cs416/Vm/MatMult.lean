import Cs416.Vm.FreeEffect

/-!
# Matrix multiplication

`mat_mult` multiplies two square matrices of words that live in the virtual memory. Each
element is read by `get_data` and stored by `put_data`, so an access may straddle two pages
and goes through the TLB.

On mapped words `get_data` and `put_data` of four bytes are a read and a store in the flat
memory (`getWord_spec`, `putWord_spec`), and neither changes what is mapped. The three loops
are then followed one iteration at a time: `Dot` for the loop over `k`, `Cells` for the
elements of the result that have been stored.
-/

open ByteMem FlatMem Lts Finset

namespace MyVm

/-! ### The loops -/

/-- The bytes of a word. -/
def wordBytes (w : ℕ) : Bytes := store32 (fun _ => 0) 0 w

/-- `get_data(addr, &x, sizeof(int))`. -/
def getWord (vm : Vm) (addr x : ℕ) : Vm × ℕ :=
  let r := getData vm addr (some (wordBytes x)) 4
  (r.1, load32 (r.2.getD (wordBytes x)) 0)

/-- `put_data(addr, &x, sizeof(int))`. -/
def putWord (vm : Vm) (addr x : ℕ) : Vm := (putData vm addr (some (wordBytes x)) 4).1

/-- `add_offset32`. -/
def addOffset32 (base offBytes : ℕ) : ℕ := (base + offBytes % 2 ^ 32) % 2 ^ 32

/-- The memory and the variables `a`, `b` and `c` of `mat_mult`. -/
structure Locals where
  vm : Vm
  a : ℕ
  b : ℕ
  c : ℕ

/-- The arguments of `mat_mult`. For every `size` whose matrices fit into the memory the `int`
products of the indices are exact. -/
structure MatArgs where
  mat1 : ℕ
  mat2 : ℕ
  size : ℕ
  answer : ℕ

variable (m : MatArgs)

/-- The body of the loop over `k`. -/
def dotBody (i j k : ℕ) (s : Locals) : Locals :=
  let addr1 := addOffset32 m.mat1 ((i * m.size + k) * 4)
  let addr2 := addOffset32 m.mat2 ((k * m.size + j) * 4)
  let r := getWord s.vm addr1 s.a
  let r' := getWord r.1 addr2 s.b
  { vm := r'.1, a := r.2, b := r'.2, c := (s.c + r.2 * r'.2) % 2 ^ 32 }

/-- The first `n` iterations of the loop over `k`. -/
def dotLoop (i j : ℕ) : ℕ → Locals → Locals
  | 0, s => s
  | n + 1, s => dotBody m i j n (dotLoop i j n s)

/-- The body of the loop over `j`. -/
def rowBody (i j : ℕ) (s : Locals) : Locals :=
  let s := dotLoop m i j m.size { s with c := 0 }
  { s with vm := putWord s.vm ((m.answer + (i * m.size + j) * 4) % 2 ^ 32) s.c }

/-- The first `n` iterations of the loop over `j`. -/
def rowLoop (i : ℕ) : ℕ → Locals → Locals
  | 0, s => s
  | n + 1, s => rowBody m i n (rowLoop i n s)

/-- The first `n` iterations of the loop over `i`. -/
def matLoop : ℕ → Locals → Locals
  | 0, s => s
  | n + 1, s => rowLoop m n m.size (matLoop n s)

/-- `mat_mult`; `a`, `b` and `c` are what the uninitialised variables hold. -/
def matMult (vm : Vm) (mat1 mat2 : UInt32) (size : Int32) (answer : UInt32) (a b c : ℕ) : Vm :=
  let n := size.toInt.toNat
  (matLoop ⟨mat1.toNat, mat2.toNat, n, answer.toNat⟩ n ⟨vm, a, b, c⟩).vm

/-! ### Words in the flat memory -/

namespace Vm

variable {vm vm' : Vm} {a x y k n : ℕ}

/-- The byte at virtual address `a`, read as `0` where nothing is mapped. -/
def byteAt (vm : Vm) (a : ℕ) : UInt8 := (vm.flat (a % 2 ^ 32)).getD 0

/-- The word at virtual address `a`. -/
def word (vm : Vm) (a : ℕ) : ℕ := load32 (fun k => vm.byteAt (a + k)) 0

/-- The `n` bytes from `a` on are mapped. -/
def Mapped (vm : Vm) (a n : ℕ) : Prop := ∀ k < n, vm.flat ((a + k) % 2 ^ 32) ≠ none

theorem Mapped.mono (h : vm.Mapped a n) (hx : x + k ≤ n) : vm.Mapped ((a + x) % 2 ^ 32) k := by
  intro j hj
  rw [show ((a + x) % 2 ^ 32 + j) % 2 ^ 32 = (a + (x + j)) % 2 ^ 32 by omega]
  exact h (x + j) (by omega)

theorem Mapped.prefix_eq (h : vm.Mapped a n) {d : ℕ} (hp : IsPrefix vm.flat a n d) : d = n := by
  by_contra hne
  have hlt : d < n := lt_of_le_of_ne hp.le hne
  exact h d hlt (hp.stop hlt)

/-- What is mapped depends on the page map only. -/
theorem mapped_congr (hs : vm'.space = vm.space) : vm'.Mapped a n ↔ vm.Mapped a n :=
  forall_congr' fun k => imp_congr_right fun _ => not_congr <| by
    rw [flat_eq_none, flat_eq_none, hs]

theorem word_congr (h : ∀ k < 4, vm'.flat ((a + k) % 2 ^ 32) = vm.flat ((a + k) % 2 ^ 32)) :
    vm'.word a = vm.word a := by
  refine load32_congr fun k _ hk => ?_
  rw [byteAt, byteAt, h k (by omega)]

theorem word_mod (vm : Vm) (a : ℕ) : vm.word (a % 2 ^ 32) = vm.word a := by
  refine load32_congr fun k _ _ => ?_
  rw [byteAt, byteAt, Nat.mod_add_mod]

/-- `get_data` of a mapped word. -/
theorem getWord_spec (h : vm.Inv) (ha : a < 2 ^ 32) (hm : vm.Mapped a 4) (x : ℕ) :
    (getWord vm a x).1.Inv ∧ (getWord vm a x).1.space = vm.space ∧
      (getWord vm a x).1.flat = vm.flat ∧ (getWord vm a x).2 = vm.word a := by
  obtain ⟨hinv, hsp, hfl, d, hpre, hget, -⟩ := getLoop_spec h (wordBytes x) 0 (n := 4) ha
  obtain rfl := hm.prefix_eq hpre
  refine ⟨hinv, hsp, hfl, load32_congr fun k _ hk => ?_⟩
  have hk' := hget k (by omega)
  rw [Nat.zero_add] at hk'
  rw [byteAt, ← hk']
  rfl

/-- `put_data` of a mapped word. -/
theorem putWord_spec (h : vm.Inv) (ha : a < 2 ^ 32) (hm : vm.Mapped a 4) (x : ℕ) :
    (putWord vm a x).Inv ∧ (putWord vm a x).space = vm.space ∧
      (putWord vm a x).flat = store vm.flat a (wordBytes x) 4 := by
  obtain ⟨hinv, hsp, d, hpre, hst, -⟩ := putLoop_spec h (wordBytes x) 0 (n := 4) ha (by decide)
  obtain rfl := hm.prefix_eq hpre
  refine ⟨hinv, hsp, hst.trans ?_⟩
  simp only [Nat.zero_add]

theorem word_store (ha : a < 2 ^ 32) (hx : x < 2 ^ 32)
    (hf : vm'.flat = store vm.flat a (wordBytes x) 4) : vm'.word a = x := by
  have hbytes : ∀ k < 4, vm'.byteAt (a + k) = wordBytes x k := fun k hk => by
    have hd := dist_add ha (show k < 2 ^ 32 by omega)
    rw [byteAt, hf, store, if_pos ⟨Nat.mod_lt _ (by decide), by omega⟩, hd]
    rfl
  rw [word, ← load32_store32 (fun _ => 0) 0 x hx]
  refine load32_congr fun k _ hk => ?_
  exact hbytes k (by omega)

theorem flat_store_of_le (hf : vm'.flat = store vm.flat a (wordBytes x) 4) (hy : 4 ≤ FlatMem.dist a y) :
    vm'.flat y = vm.flat y := by
  rw [hf, store, if_neg fun hc => by omega]

end Vm

/-! ### The loop over `k` -/

variable {m} {vm : Vm} {s : Locals} {i j k n : ℕ}

/-- The matrices are mapped, and the result overlaps neither factor. -/
structure MatArgs.Ok (m : MatArgs) (vm : Vm) : Prop where
  mat1 : vm.Mapped m.mat1 (4 * (m.size * m.size))
  mat2 : vm.Mapped m.mat2 (4 * (m.size * m.size))
  answer : vm.Mapped m.answer (4 * (m.size * m.size))
  disjoint1 : ∀ x < 4 * (m.size * m.size), ∀ y < 4 * (m.size * m.size),
    (m.answer + x) % 2 ^ 32 ≠ (m.mat1 + y) % 2 ^ 32
  disjoint2 : ∀ x < 4 * (m.size * m.size), ∀ y < 4 * (m.size * m.size),
    (m.answer + x) % 2 ^ 32 ≠ (m.mat2 + y) % 2 ^ 32

/-- Element `(i, j)` of the first factor. -/
def MatArgs.entry1 (m : MatArgs) (vm : Vm) (i j : ℕ) : ℕ := vm.word (m.mat1 + 4 * (i * m.size + j))

/-- Element `(i, j)` of the second factor. -/
def MatArgs.entry2 (m : MatArgs) (vm : Vm) (i j : ℕ) : ℕ := vm.word (m.mat2 + 4 * (i * m.size + j))

/-- Element `(i, j)` of the result. -/
def MatArgs.entry (m : MatArgs) (vm : Vm) (i j : ℕ) : ℕ := vm.word (m.answer + 4 * (i * m.size + j))

/-- Element `(i, j)` of the product, as far as the first `n` terms. -/
def MatArgs.partialSum (m : MatArgs) (vm : Vm) (i j n : ℕ) : ℕ :=
  ∑ k ∈ range n, m.entry1 vm i k * m.entry2 vm k j

theorem addOffset32_eq (base off : ℕ) : addOffset32 base off = (base + off) % 2 ^ 32 := by
  rw [addOffset32]
  omega

/-- The offset of an element lies in the matrix. -/
theorem index_bound (hi : i < n) (hj : j < n) : 4 * (i * n + j) + 4 ≤ 4 * (n * n) := by
  have : (i + 1) * n ≤ n * n := Nat.mul_le_mul_right n hi
  rw [Nat.succ_mul] at this
  omega

/-- The state of the loop over `k` after `n` iterations, from the memory `vm`. -/
structure Dot (m : MatArgs) (vm : Vm) (i j n : ℕ) (s : Locals) : Prop where
  inv : s.vm.Inv
  space : s.vm.space = vm.space
  flat : s.vm.flat = vm.flat
  sum : s.c = m.partialSum vm i j n % 2 ^ 32

theorem Dot.start (h : vm.Inv) (a b : ℕ) : Dot m vm i j 0 ⟨vm, a, b, 0⟩ :=
  ⟨h, rfl, rfl, rfl⟩

theorem Dot.step (h : Dot m vm i j k s) (hm : m.Ok vm) (hi : i < m.size) (hj : j < m.size)
    (hk : k < m.size) : Dot m vm i j (k + 1) (dotBody m i j k s) := by
  have hb1 := index_bound hi hk
  have hb2 := index_bound hk hj
  have hword : ∀ {vm' : Vm}, vm'.flat = vm.flat → ∀ a, vm'.word a = vm.word a := fun hf a =>
    Vm.word_congr fun _ _ => by rw [hf]
  rw [dotBody, addOffset32_eq, addOffset32_eq, Nat.mul_comm _ 4, Nat.mul_comm _ 4]
  have hmap1 := (Vm.mapped_congr h.space).mpr (hm.mat1.mono hb1)
  obtain ⟨hinv, hsp, hfl, hval⟩ := Vm.getWord_spec h.inv (Nat.mod_lt _ (by decide)) hmap1 s.a
  have hmap2 := (Vm.mapped_congr (hsp.trans h.space)).mpr (hm.mat2.mono hb2)
  obtain ⟨hinv', hsp', hfl', hval'⟩ := Vm.getWord_spec hinv (Nat.mod_lt _ (by decide)) hmap2 s.b
  refine ⟨hinv', hsp'.trans (hsp.trans h.space), hfl'.trans (hfl.trans h.flat), ?_⟩
  dsimp only
  rw [hval, hval', Vm.word_mod, Vm.word_mod, hword h.flat, hword (hfl.trans h.flat), h.sum,
    Nat.mod_add_mod, MatArgs.partialSum, MatArgs.partialSum, sum_range_succ]
  rfl

theorem Dot.loop (h : vm.Inv) (hm : m.Ok vm) (hi : i < m.size) (hj : j < m.size) (a b : ℕ)
    (hn : n ≤ m.size) : Dot m vm i j n (dotLoop m i j n ⟨vm, a, b, 0⟩) := by
  induction n with
  | zero => exact .start h a b
  | succ n ih => exact (ih (by omega)).step hm hi hj (by omega)

/-! ### The loops over `i` and `j` -/

/-- The state after the first `n` elements of the result, counted row by row, have been
stored; `vm` is the memory at the call. -/
structure Cells (m : MatArgs) (vm : Vm) (n : ℕ) (s : Locals) : Prop where
  inv : s.vm.Inv
  space : s.vm.space = vm.space
  /-- Only the result is written. -/
  frame : ∀ x < 2 ^ 32, (∀ k < 4 * (m.size * m.size), x ≠ (m.answer + k) % 2 ^ 32) →
    s.vm.flat x = vm.flat x
  stored : ∀ i < m.size, ∀ j < m.size, i * m.size + j < n →
    m.entry s.vm i j = m.partialSum vm i j m.size % 2 ^ 32

theorem Cells.start (h : vm.Inv) (a b c : ℕ) : Cells m vm 0 ⟨vm, a, b, c⟩ :=
  ⟨h, rfl, fun _ _ _ => rfl, fun _ _ _ _ hn => absurd hn (Nat.not_lt_zero _)⟩

/-- A mapped range does not reach around to page `0`. -/
theorem MatArgs.Ok.size_lt (hm : m.Ok vm) (h : vm.Inv) : 4 * (m.size * m.size) < 2 ^ 32 := by
  by_contra hc
  refine hm.answer ((2 ^ 32 - m.answer % 2 ^ 32) % 2 ^ 32) (by omega) ?_
  rw [show (m.answer + (2 ^ 32 - m.answer % 2 ^ 32) % 2 ^ 32) % 2 ^ 32 = 0 by omega,
    Vm.flat_eq_none]
  exact h.wf.page_zero

/-- The factors are not affected by what is stored. -/
theorem Cells.partialSum (h : Cells m vm n s) (hm : m.Ok vm) (hi : i < m.size) (hj : j < m.size)
    (hk : k ≤ m.size) : m.partialSum s.vm i j k = m.partialSum vm i j k := by
  refine sum_congr rfl fun l hl => ?_
  have hl' : l < m.size := lt_of_lt_of_le (mem_range.mp hl) hk
  have hb1 := index_bound hi hl'
  have hb2 := index_bound hl' hj
  congr 1
  · refine Vm.word_congr fun o ho => h.frame _ (Nat.mod_lt _ (by decide)) fun x hx => ?_
    rw [Nat.add_assoc]
    exact (hm.disjoint1 x hx _ (by omega)).symm
  · refine Vm.word_congr fun o ho => h.frame _ (Nat.mod_lt _ (by decide)) fun x hx => ?_
    rw [Nat.add_assoc]
    exact (hm.disjoint2 x hx _ (by omega)).symm

theorem Cells.args (h : Cells m vm n s) (hm : m.Ok vm) : m.Ok s.vm :=
  ⟨(Vm.mapped_congr h.space).mpr hm.mat1, (Vm.mapped_congr h.space).mpr hm.mat2,
    (Vm.mapped_congr h.space).mpr hm.answer, hm.disjoint1, hm.disjoint2⟩

/-- Distinct elements have distinct indices. -/
theorem index_inj {i' j' : ℕ} (hj : j < n) (hj' : j' < n) (h : i * n + j = i' * n + j') :
    i = i' ∧ j = j' := by
  have hi : (i * n + j) / n = (i' * n + j') / n := by rw [h]
  have hr : (i * n + j) % n = (i' * n + j') % n := by rw [h]
  rw [Nat.mul_comm, Nat.mul_add_div (by omega), Nat.div_eq_of_lt hj, Nat.mul_comm i' n,
    Nat.mul_add_div (by omega), Nat.div_eq_of_lt hj'] at hi
  rw [Nat.mul_add_mod', Nat.mul_add_mod', Nat.mod_eq_of_lt hj, Nat.mod_eq_of_lt hj'] at hr
  exact ⟨hi, hr⟩

theorem Cells.step (h : Cells m vm (i * m.size + j) s) (hm : m.Ok vm) (hvm : vm.Inv)
    (hi : i < m.size) (hj : j < m.size) :
    Cells m vm (i * m.size + (j + 1)) (rowBody m i j s) := by
  have hdot := Dot.loop h.inv (h.args hm) hi hj s.a s.b le_rfl
  have hlt := hm.size_lt hvm
  have hb := index_bound hi hj
  rw [rowBody, Nat.mul_comm _ 4]
  generalize dotLoop m i j m.size { s with c := 0 } = s₁ at hdot ⊢
  have hmap := (Vm.mapped_congr (hdot.space.trans h.space)).mpr (hm.answer.mono hb)
  set addr := (m.answer + 4 * (i * m.size + j)) % 2 ^ 32 with haddr
  have hal : addr < 2 ^ 32 := Nat.mod_lt _ (by decide)
  obtain ⟨hinv, hsp, hfl⟩ := Vm.putWord_spec hdot.inv hal hmap s₁.c
  -- the bytes of any other element, and those outside the result, lie elsewhere
  have hkeep : ∀ y, 4 ≤ FlatMem.dist addr y → (putWord s₁.vm addr s₁.c).flat y = s.vm.flat y := fun y hy =>
    (Vm.flat_store_of_le hfl hy).trans (congrFun hdot.flat y)
  refine ⟨hinv, hsp.trans (hdot.space.trans h.space), fun x hx hout => ?_, fun i' hi' j' hj' hn => ?_⟩
  · rw [hkeep x, h.frame x hx hout]
    by_contra hc
    refine hout (4 * (i * m.size + j) + FlatMem.dist addr x) (by omega) ?_
    rw [haddr, FlatMem.dist] at *
    omega
  · by_cases heq : i' * m.size + j' = i * m.size + j
    · obtain ⟨rfl, rfl⟩ := index_inj hj' hj heq
      rw [MatArgs.entry, ← Vm.word_mod, ← haddr, Vm.word_store hal ?_ hfl, hdot.sum,
        h.partialSum hm hi hj le_rfl]
      rw [hdot.sum]
      exact Nat.mod_lt _ (by decide)
    · rw [← h.stored i' hi' j' hj' (by omega)]
      refine Vm.word_congr fun o ho => hkeep _ ?_
      have hb' := index_bound hi' hj'
      rw [haddr, FlatMem.dist]
      omega

end MyVm
