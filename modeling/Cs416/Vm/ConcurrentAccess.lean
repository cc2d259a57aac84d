import Cs416.Vm.TlbCoherence

/-!
# Concurrent accesses

`put_data` and `get_data` run by any number of threads on one memory. An access is cut where
the program takes a mutex or touches shared data without one: `TLB_check`, the update of the
counters in `translate`, the walk, `TLB_add`, the read of the entry through the pointer that
`translate` returned, and the `memcpy`. A step of the system is one such section of one thread.

An access that nobody interrupts is the call of the sequential library (`solo_call`).

The mutex of the TLB is released before the pointer into the slot is used. `KeepsPointed` is
the side condition that no `TLB_add` takes a slot in that window. It is what the access needs:
under it every access reads the entry of its own page and copies to or from that page
(`OwnPages`), and a step that breaks it leaves a thread with a pointer to the entry of another
page (`accesses_own_pages`).
-/

open ByteMem FlatMem Lts Function

namespace MyVm

/-! ### The sections of an access -/

/-- The buffer of a call: the source of `put_data` or the destination of `get_data`. -/
inductive Transfer
  | put (src : Bytes)
  | get (dst : Bytes)

/-- The locals of `put_data` and `get_data`; `done` bytes have been copied. -/
structure Access where
  transfer : Transfer
  done : ℕ
  currVa : ℕ
  bytesRemaining : ℕ

/-- The section that comes next, with the locals of `translate` it needs. -/
inductive Pc
  /-- `TLB_check`. -/
  | check
  /-- `tlb_lookups++`, and `tlb_misses++` when `TLB_check` returned `NULL`. -/
  | count (tlbPte : Option ℕ)
  /-- The lookup in the directory and the table. -/
  | walk
  /-- `TLB_add` of `pte`; `result` is the address of the entry. -/
  | add (pte result : ℕ)
  /-- `page_base = *pte`. -/
  | read (pte : PtePtr)
  /-- The `memcpy`. -/
  | copy (pageBase : ℕ)

/-- What a thread is doing. -/
inductive Thread
  | idle
  | accessing (a : Access) (pc : Pc)
  | returned (r : Result)

namespace Access

/-- The result when `translate` fails. -/
def failed (a : Access) : Result :=
  match a.transfer with
  | .put _ => .code (-1)
  | .get dst => .buffer (some dst)

/-- The result when no byte remains. -/
def finished (a : Access) : Result :=
  match a.transfer with
  | .put _ => .code 0
  | .get dst => .buffer (some dst)

/-- The bytes of one iteration. -/
def chunk (a : Access) : ℕ := bytesToCopy a.currVa a.bytesRemaining

/-- The memory after the `memcpy`, which writes it in `put_data` only. -/
def copyOut (a : Access) (vm : Vm) (pageBase : ℕ) : Vm :=
  match a.transfer with
  | .put src => { vm with
      physMem := memcpy vm.physMem (pageBase + off a.currVa) (fun k => src (a.done + k)) a.chunk }
  | .get _ => vm

/-- The buffer after the `memcpy`, which writes it in `get_data` only. -/
def copyIn (a : Access) (vm : Vm) (pageBase : ℕ) : Transfer :=
  match a.transfer with
  | .put src => .put src
  | .get dst => .get
      (memcpy dst a.done (fun k => vm.physMem (pageBase + off a.currVa + k)) a.chunk)

/-- The locals after the `memcpy`. -/
def advance (a : Access) (vm : Vm) (pageBase : ℕ) : Access where
  transfer := a.copyIn vm pageBase
  done := a.done + a.chunk
  currVa := (a.currVa + a.chunk) % 2 ^ 32
  bytesRemaining := a.bytesRemaining - a.chunk

/-- The head of the loop: return, or translate the next address. -/
def loop (a : Access) : Thread :=
  if a.bytesRemaining = 0 then .returned a.finished else .accessing a .check

/-- One section of an access. -/
def next (a : Access) (vm : Vm) : Pc → Vm × Thread
  | .check => (vm, .accessing a (.count (tlbCheck vm.tlbStore a.currVa)))
  | .count (some i) => (vm.countLookup, .accessing a (.read (.tlbSlot i)))
  | .count none => (vm.countLookup.countMiss, .accessing a .walk)
  | .walk =>
    let pde := vm.loadPde vm.pageDir (pdx a.currVa)
    if pde = 0 then (vm, .returned a.failed)
    else
      let pte := vm.loadPte pde (ptx a.currVa)
      if pte = 0 then (vm, .returned a.failed)
      else (vm, .accessing a (.add pte (pde + 4 * ptx a.currVa)))
  | .add pte result => (vm.addTlb a.currVa pte, .accessing a (.read (.pteAt result)))
  | .read pte => (vm, .accessing a (.copy (vm.deref pte)))
  | .copy pageBase => (a.copyOut vm pageBase, (a.advance vm pageBase).loop)

end Access

/-- The part of `put_data` and `get_data` before the loop. -/
def Call.begin : Call → Option Thread
  | .putData _ none _ => some (.returned (.code (-1)))
  | .putData va (some src) size =>
    if size.toInt ≤ 0 then some (.returned (.code (-1)))
    else some (Access.loop ⟨.put src, 0, va.toNat, size.toInt.toNat⟩)
  | .getData _ none _ => some (.returned (.buffer none))
  | .getData va (some dst) size =>
    if size.toInt ≤ 0 then some (.returned (.buffer (some dst)))
    else some (Access.loop ⟨.get dst, 0, va.toNat, size.toInt.toNat⟩)
  | _ => none

/-! ### The system -/

/-- The memory and the threads. -/
structure Shared (T : Type) where
  vm : Vm
  threads : T → Thread

/-- A thread calls `put_data` or `get_data`, or performs its next section. -/
inductive Move (T : Type)
  | call (t : T) (c : Call)
  | run (t : T)

variable {T : Type} [DecidableEq T]

/-- One step of one thread. -/
def Shared.step (s : Shared T) : Move T → Option (Shared T)
  | .call t c =>
    match s.threads t with
    | .accessing _ _ => none
    | _ => c.begin.map fun th => { s with threads := update s.threads t th }
  | .run t =>
    match s.threads t with
    | .accessing a pc =>
      let r := a.next s.vm pc
      some { vm := r.1, threads := update s.threads t r.2 }
    | _ => none

/-- The threads that use the memory `vm`, all outside an access at first. -/
def accesses (T : Type) [DecidableEq T] (vm : Vm) : System (Shared T) (Move T) where
  init s := s = { vm := vm, threads := fun _ => .idle }
  step s l s' := s.step l = some s'

/-! ### An access that nobody interrupts -/

namespace Access

/-- `n` sections of one thread in a row. -/
def solo : ℕ → Vm × Thread → Vm × Thread
  | 0, r => r
  | n + 1, (vm, .accessing a pc) => solo n (a.next vm pc)
  | _ + 1, r => r

theorem solo_add (m n : ℕ) (r : Vm × Thread) : solo (m + n) r = solo n (solo m r) := by
  induction m generalizing r with
  | zero => rw [Nat.zero_add, solo]
  | succ m ih =>
    rw [Nat.add_right_comm]
    obtain ⟨vm, th⟩ := r
    cases th with
    | accessing a pc => exact ih _
    | idle => cases n <;> rfl
    | returned r => cases n <;> rfl

/-- The sections up to the read of the entry are `translate`. -/
theorem solo_translate (a : Access) (vm : Vm) : ∃ n, solo n (vm, .accessing a .check)
    = match translate vm vm.pageDir a.currVa with
      | (vm', some p) => (vm', .accessing a (.read p))
      | (vm', none) => (vm', .returned a.failed) := by
  cases hc : tlbCheck vm.tlbStore a.currVa with
  -- a hit: the counter, then the pointer into the TLB
  | some i =>
    have ht : translate vm vm.pageDir a.currVa = (vm.countLookup, some (.tlbSlot i)) := by
      rw [translate, hc]
    refine ⟨2, ?_⟩
    rw [ht, solo, next, hc, solo, next, solo]
  -- a miss: two counters, then the walk
  | none =>
    set vm₁ := vm.countLookup.countMiss with hvm₁
    have hw : ∀ n, solo (n + 2) (vm, .accessing a .check) = solo n (vm₁, .accessing a .walk) := by
      intro n
      rw [solo, next, hc, solo, next]
    -- no page table
    by_cases hd : vm₁.loadPde vm.pageDir (pdx a.currVa) = 0
    · have ht : translate vm vm.pageDir a.currVa = (vm₁, none) := by
        rw [translate, hc]
        simp only [← hvm₁, if_pos hd]
      have hn : a.next vm₁ .walk = (vm₁, .returned a.failed) := if_pos hd
      refine ⟨1 + 2, ?_⟩
      rw [ht, hw, solo, hn, solo]
    -- no page
    by_cases hp : vm₁.loadPte (vm₁.loadPde vm.pageDir (pdx a.currVa)) (ptx a.currVa) = 0
    · have ht : translate vm vm.pageDir a.currVa = (vm₁, none) := by
        rw [translate, hc]
        simp only [← hvm₁, if_neg hd, if_pos hp]
      have hn : a.next vm₁ .walk = (vm₁, .returned a.failed) := (if_neg hd).trans (if_pos hp)
      refine ⟨1 + 2, ?_⟩
      rw [ht, hw, solo, hn, solo]
    -- the walk succeeds, and `TLB_add` is a section more
    · have ht : translate vm vm.pageDir a.currVa
          = (vm₁.addTlb a.currVa
              (vm₁.loadPte (vm₁.loadPde vm.pageDir (pdx a.currVa)) (ptx a.currVa)),
            some (.pteAt (vm₁.loadPde vm.pageDir (pdx a.currVa) + 4 * ptx a.currVa))) := by
        rw [translate, hc]
        simp only [← hvm₁, if_neg hd, if_neg hp]
      have hn : a.next vm₁ .walk = (vm₁, .accessing a (.add
          (vm₁.loadPte (vm₁.loadPde vm.pageDir (pdx a.currVa)) (ptx a.currVa))
          (vm₁.loadPde vm.pageDir (pdx a.currVa) + 4 * ptx a.currVa))) :=
        (if_neg hd).trans (if_neg hp)
      refine ⟨2 + 2, ?_⟩
      rw [ht, hw, solo, hn, solo, next, solo]

/-- What the loop of the sequential call does from here on. -/
def rest (a : Access) (vm : Vm) : Vm × Result :=
  match a.transfer with
  | .put src =>
    let r := putLoop vm src a.done a.currVa a.bytesRemaining
    (r.1, .code r.2)
  | .get dst =>
    let r := getLoop vm dst a.done a.currVa a.bytesRemaining
    (r.1, .buffer (some r.2))

theorem rest_finished {a : Access} (h : a.bytesRemaining = 0) (vm : Vm) :
    a.rest vm = (vm, a.finished) := by
  obtain ⟨tr, done, va, n⟩ := a
  obtain rfl : n = 0 := h
  cases tr with
  | put src =>
    dsimp only [rest]
    rw [putLoop, if_pos rfl, finished]
  | get dst =>
    dsimp only [rest]
    rw [getLoop, if_pos rfl, finished]

theorem rest_failed {a : Access} {vm vm' : Vm} (h : a.bytesRemaining ≠ 0)
    (ht : translate vm vm.pageDir a.currVa = (vm', none)) : a.rest vm = (vm', a.failed) := by
  obtain ⟨tr, done, va, n⟩ := a
  dsimp only at h ht
  cases tr with
  | put src =>
    dsimp only [rest]
    rw [putLoop, if_neg h, ht, failed]
  | get dst =>
    dsimp only [rest]
    rw [getLoop, if_neg h, ht, failed]

theorem rest_copied {a : Access} {vm vm' : Vm} {p : PtePtr} (h : a.bytesRemaining ≠ 0)
    (ht : translate vm vm.pageDir a.currVa = (vm', some p)) :
    a.rest vm = (a.advance vm' (vm'.deref p)).rest (a.copyOut vm' (vm'.deref p)) := by
  obtain ⟨tr, done, va, n⟩ := a
  dsimp only at h ht
  cases tr with
  | put src =>
    dsimp only [rest]
    rw [putLoop, if_neg h, ht]
    rfl
  | get dst =>
    dsimp only [rest]
    rw [getLoop, if_neg h, ht]
    rfl

theorem solo_loop (a : Access) (vm : Vm) :
    ∃ n, solo n (vm, a.loop) = ((a.rest vm).1, .returned (a.rest vm).2) := by
  obtain ⟨k, hk⟩ : ∃ k, a.bytesRemaining = k := ⟨_, rfl⟩
  induction k using Nat.strong_induction_on generalizing vm a with
  | _ k ih =>
    by_cases h0 : a.bytesRemaining = 0
    · refine ⟨0, ?_⟩
      rw [rest_finished h0, loop, if_pos h0, solo]
    obtain ⟨n, hn⟩ := solo_translate a vm
    cases ht : translate vm vm.pageDir a.currVa with
    | mk vm' r =>
      rw [ht] at hn
      cases r with
      | none =>
        refine ⟨n, ?_⟩
        rw [rest_failed h0 ht, loop, if_neg h0, hn]
      | some p =>
        have hpos := bytesToCopy_pos a.currVa h0
        obtain ⟨m, hm⟩ := ih _ (show a.bytesRemaining - a.chunk < k by rw [chunk]; omega)
          (a.advance vm' (vm'.deref p)) (a.copyOut vm' (vm'.deref p)) rfl
        refine ⟨n + (2 + m), ?_⟩
        rw [rest_copied h0 ht, ← hm, solo_add, loop, if_neg h0, hn, solo_add]
        rfl

end Access

/-- **An access that nobody interrupts** is the call of the sequential library. -/
theorem solo_call {c : Call} {th : Thread} (h : c.begin = some th) (vm : Vm) :
    ∃ n, Access.solo n (vm, th) = ((vm.call c).1, .returned (vm.call c).2) := by
  cases c with
  | putData va val size =>
    -- a null buffer: the call returns at once
    cases val with
    | none =>
      obtain rfl := Option.some.inj h
      exact ⟨0, rfl⟩
    | some src =>
      rw [Call.begin] at h
      by_cases hz : size.toInt ≤ 0
      · rw [if_pos hz] at h
        obtain rfl := Option.some.inj h
        refine ⟨0, ?_⟩
        simp only [Vm.call, putData, if_pos hz, Access.solo]
      · rw [if_neg hz] at h
        obtain rfl := Option.some.inj h
        obtain ⟨n, hn⟩ := Access.solo_loop ⟨.put src, 0, va.toNat, size.toInt.toNat⟩ vm
        refine ⟨n, ?_⟩
        rw [hn]
        simp only [Access.rest, Vm.call, putData, if_neg hz]
  | getData va val size =>
    cases val with
    | none =>
      obtain rfl := Option.some.inj h
      exact ⟨0, rfl⟩
    | some dst =>
      rw [Call.begin] at h
      by_cases hz : size.toInt ≤ 0
      · rw [if_pos hz] at h
        obtain rfl := Option.some.inj h
        refine ⟨0, ?_⟩
        simp only [Vm.call, getData, if_pos hz, Access.solo]
      · rw [if_neg hz] at h
        obtain rfl := Option.some.inj h
        obtain ⟨n, hn⟩ := Access.solo_loop ⟨.get dst, 0, va.toNat, size.toInt.toNat⟩ vm
        refine ⟨n, ?_⟩
        rw [hn]
        simp only [Access.rest, Vm.call, getData, if_neg hz]
  | _ => exact absurd h (by simp [Call.begin])

/-! ### Pointers into the TLB -/

/-- Slot `i` holds page `v`. -/
def Tlb.Holds (t : Tlb) (i v : ℕ) : Prop := (t.entries i).valid = true ∧ (t.entries i).vpn = v

/-- A slot keeps its page over a `TLB_add`, unless it is taken for another one. -/
theorem Tlb.Holds.tlbAdd {t : Tlb} {i v va : ℕ} (h : t.Holds i v) (pa : ℕ)
    (hv : t.find (va >>> pfnShift) = none → i ≠ t.victim) : (tlbAdd t va pa).1.Holds i v := by
  obtain ⟨-, he⟩ | ⟨j, -, he⟩ | ⟨-, -, hf, he⟩ := tlbAdd_cases t va pa
  · rw [he]
    exact h
  · rw [he, Tlb.Holds, Tlb.setEntry_entries]
    by_cases hij : i = j
    · rw [hij, update_self]
      exact hij ▸ h
    · rw [update_of_ne hij]
      exact h
  · rw [he, Tlb.Holds, Tlb.setEntry_entries, update_of_ne (hv hf), Tlb.advance_entries]
    exact h

/-- The pointer to an entry that the access has and has not read yet. -/
def Pc.pointer : Pc → Option PtePtr
  | .count (some i) => some (.tlbSlot i)
  | .add _ result => some (.pteAt result)
  | .read pte => some pte
  | _ => none

/-- The step does not take, for a page without an entry, the TLB slot that a pointer leads
to. -/
def KeepsPointed (s : Shared T) : Move T → Prop
  | .call _ _ => True
  | .run u => ∀ a pte result, s.threads u = .accessing a (.add pte result) →
      s.vm.tlbStore.find (a.currVa >>> pfnShift) = none →
        ∀ t b pc, s.threads t = .accessing b pc →
          pc.pointer ≠ some (.tlbSlot s.vm.tlbStore.victim)

/-- What the locals of an access to page `v` mean. -/
def Pc.Ok (vm : Vm) (v : ℕ) : Pc → Prop
  | .check | .walk | .count none => True
  | .count (some i) => vm.tlbStore.Holds i v
  | .add pte result => pte = vm.space.page v ∧ vm.space.page v ≠ 0 ∧
      result = vm.space.dir (v / 1024) + 4 * (v % 1024)
  | .read (.tlbSlot i) => vm.tlbStore.Holds i v
  | .read (.pteAt pa) => vm.space.page v ≠ 0 ∧ pa = vm.space.dir (v / 1024) + 4 * (v % 1024)
  | .copy pageBase => pageBase = vm.space.page v ∧ vm.space.page v ≠ 0

/-- An access inside the loop. -/
structure Access.Ok (a : Access) (pc : Pc) (vm : Vm) : Prop where
  currVa : a.currVa < 2 ^ 32
  bytesRemaining : a.bytesRemaining ≠ 0
  pc : pc.Ok vm (a.currVa / 4096)

/-- The invariant of the system. -/
structure Shared.Inv (s : Shared T) : Prop where
  vm : s.vm.Inv
  threads : ∀ t a pc, s.threads t = .accessing a pc → a.Ok pc s.vm

section

variable {vm vm' : Vm} {a : Access} {pc : Pc} {v : ℕ}

/-- What an access knows depends on the page map and the slot it points to. -/
theorem Pc.Ok.congr (h : pc.Ok vm v) (hs : vm'.space = vm.space)
    (ht : ∀ i, pc.pointer = some (.tlbSlot i) → vm.tlbStore.Holds i v → vm'.tlbStore.Holds i v) :
    pc.Ok vm' v := by
  cases pc with
  | check => trivial
  | walk => trivial
  | count i =>
    cases i with
    | none => trivial
    | some i => exact ht i rfl h
  | add pte result =>
    rw [Pc.Ok, hs]
    exact h
  | read p =>
    cases p with
    | tlbSlot i => exact ht i rfl h
    | pteAt pa =>
      rw [Pc.Ok, hs]
      exact h
  | copy base =>
    rw [Pc.Ok, hs]
    exact h

/-- The pointer of an access leads to the entry of its page. -/
theorem Access.Ok.deref (h : vm.Inv) (ha : a.Ok pc vm) {p : PtePtr} (hp : pc.pointer = some p) :
    vm.deref p = vm.space.page (a.currVa / 4096) ∧ vm.space.page (a.currVa / 4096) ≠ 0 := by
  -- a slot that holds the page holds its entry, since the TLB is coherent
  have hslot : ∀ i, vm.tlbStore.Holds i (a.currVa / 4096) →
      vm.deref (.tlbSlot i) = vm.space.page (a.currVa / 4096) ∧
        vm.space.page (a.currVa / 4096) ≠ 0 := by
    intro i hi
    obtain ⟨hpte, hne⟩ := h.tlb.coherent i hi.1
    rw [hi.2] at hpte hne
    exact ⟨hpte, hne⟩
  -- the other pointers lead into the page table
  have hentry : vm.space.page (a.currVa / 4096) ≠ 0 →
      vm.deref (.pteAt (vm.space.dir (a.currVa / 4096 / 1024) + 4 * (a.currVa / 4096 % 1024)))
        = vm.space.page (a.currVa / 4096) := by
    intro hne
    have hva := ha.currVa
    have := Vm.loadPte_dir (i := a.currVa / 4096 / 1024) (j := a.currVa / 4096 % 1024) (by omega)
      (Nat.mod_lt _ (by decide)) (h.wf.page_dir _ hne)
    rwa [Nat.div_add_mod] at this
  have hok := ha.pc
  cases pc with
  | check => exact absurd hp (by simp [Pc.pointer])
  | walk => exact absurd hp (by simp [Pc.pointer])
  | copy base => exact absurd hp (by simp [Pc.pointer])
  | count i =>
    cases i with
    | none => exact absurd hp (by simp [Pc.pointer])
    | some i =>
      obtain rfl := Option.some.inj hp
      exact hslot i hok
  | add pte result =>
    obtain rfl := Option.some.inj hp
    obtain ⟨-, hne, rfl⟩ := hok
    exact ⟨hentry hne, hne⟩
  | read q =>
    obtain rfl := Option.some.inj hp
    cases q with
    | tlbSlot i => exact hslot i hok
    | pteAt pa =>
      obtain ⟨hne, rfl⟩ := hok
      exact ⟨hentry hne, hne⟩

/-- The `memcpy` of `put_data` stores one chunk of the page in the flat memory. -/
theorem Access.Ok.flat_copyOut {pageBase : ℕ} (h : vm.Inv) (ha : a.Ok (.copy pageBase) vm)
    {src : Bytes} (ht : a.transfer = .put src) :
    (a.copyOut vm pageBase).space = vm.space ∧
      (a.copyOut vm pageBase).flat
        = store vm.flat a.currVa (fun k => src (a.done + k)) a.chunk := by
  obtain ⟨rfl, hne⟩ := ha.pc
  have hm := @Vm.flat_memcpy _ h.toPageInv _ _ (fun k => src (a.done + k)) ha.currVa
    ha.bytesRemaining hne
  rw [← off_eq] at hm
  simp only [Access.copyOut, ht]
  exact hm

/-- The `memcpy` keeps the invariant, the page map and the TLB. -/
theorem Access.Ok.copyOut {pageBase : ℕ} (h : vm.Inv) (ha : a.Ok (.copy pageBase) vm) :
    (a.copyOut vm pageBase).Inv ∧ (a.copyOut vm pageBase).space = vm.space ∧
      (a.copyOut vm pageBase).tlbStore = vm.tlbStore := by
  cases ht : a.transfer with
  | put src =>
    obtain ⟨hs, -⟩ := ha.flat_copyOut h ht
    have ht' : (a.copyOut vm pageBase).tlbStore = vm.tlbStore := by
      simp only [Access.copyOut, ht]
    have hd : (a.copyOut vm pageBase).pageDir = vm.pageDir := by
      simp only [Access.copyOut, ht]
    exact ⟨⟨⟨hd.trans h.pageDir, by rw [hs]; exact h.wf⟩, by rw [hs, ht']; exact h.tlb⟩, hs, ht'⟩
  | get dst =>
    have he : a.copyOut vm pageBase = vm := by
      simp only [Access.copyOut, ht]
    rw [he]
    exact ⟨h, rfl, rfl⟩

/-- What one section of an access does: the page map stays, only `TLB_add` writes the TLB, and
the access stays well-formed. -/
structure Section (vm : Vm) (a : Access) (pc : Pc) (r : Vm × Thread) : Prop where
  inv : r.1.Inv
  space : r.1.space = vm.space
  tlb : r.1.tlbStore = vm.tlbStore ∨ ∃ pte result, pc = .add pte result ∧
    r.1.tlbStore = (tlbAdd vm.tlbStore a.currVa pte).1
  ok : ∀ a' pc', r.2 = .accessing a' pc' → a'.Ok pc' r.1

/-- A section that leaves the bytes, the bitmaps and the TLB alone. -/
theorem Section.stay {pc₁ : Pc} (h : vm.Inv) (ha : a.Ok pc vm) (hd : vm'.pageDir = vm.pageDir)
    (hs : vm'.space = vm.space) (ht : vm'.tlbStore = vm.tlbStore)
    (hok : pc₁.Ok vm' (a.currVa / 4096)) : Section vm a pc (vm', .accessing a pc₁) where
  inv := ⟨⟨hd.trans h.pageDir, by rw [hs]; exact h.wf⟩, by rw [hs, ht]; exact h.tlb⟩
  space := hs
  tlb := .inl ht
  ok a' pc' he := by
    obtain ⟨rfl, rfl⟩ := Thread.accessing.inj he
    exact ⟨ha.currVa, ha.bytesRemaining, hok⟩

theorem Access.Ok.section_check (h : vm.Inv) (ha : a.Ok .check vm) :
    Section vm a .check (a.next vm .check) := by
  refine Section.stay h ha rfl rfl rfl ?_
  cases hc : tlbCheck vm.tlbStore a.currVa with
  | none => trivial
  | some i =>
    rw [tlbCheck] at hc
    split at hc
    · exact absurd hc (by simp)
    · rw [shiftRight_12] at hc
      exact (Tlb.find_eq_some hc).2

theorem Access.Ok.section_walk (h : vm.Inv) (ha : a.Ok .walk vm) :
    Section vm a .walk (a.next vm .walk) := by
  have hfail : Section vm a .walk (vm, .returned a.failed) :=
    ⟨h, rfl, .inl rfl, fun a' pc' he => absurd he (by simp)⟩
  by_cases hd : vm.loadPde vm.pageDir (pdx a.currVa) = 0
  · have hn : a.next vm .walk = (vm, .returned a.failed) := if_pos hd
    rw [hn]
    exact hfail
  by_cases hp : vm.loadPte (vm.loadPde vm.pageDir (pdx a.currVa)) (ptx a.currVa) = 0
  · have hn : a.next vm .walk = (vm, .returned a.failed) := (if_neg hd).trans (if_pos hp)
    rw [hn]
    exact hfail
  · have hw := Vm.walk_eq ha.currVa hd
    have hn : a.next vm .walk = (vm, .accessing a (.add
        (vm.loadPte (vm.loadPde vm.pageDir (pdx a.currVa)) (ptx a.currVa))
        (vm.loadPde vm.pageDir (pdx a.currVa) + 4 * ptx a.currVa))) :=
      (if_neg hd).trans (if_neg hp)
    rw [hn]
    rw [hw] at hp
    exact Section.stay h ha rfl rfl rfl ⟨hw, hp, by rw [Vm.loadPde_eq ha.currVa, ptx_eq]⟩

theorem Access.Ok.section_add {pte result : ℕ} (h : vm.Inv) (ha : a.Ok (.add pte result) vm) :
    Section vm a (.add pte result) (a.next vm (.add pte result)) := by
  obtain ⟨rfl, hne, rfl⟩ := ha.pc
  exact
    { inv := ⟨⟨h.pageDir, h.wf⟩, h.tlb.add (by rw [shiftRight_12]) hne⟩
      space := rfl
      tlb := .inr ⟨_, _, rfl, rfl⟩
      ok := fun a' pc' he => by
        obtain ⟨rfl, rfl⟩ := Thread.accessing.inj he
        exact ⟨ha.currVa, ha.bytesRemaining, hne, rfl⟩ }

theorem Access.Ok.section_copy {pageBase : ℕ} (h : vm.Inv) (ha : a.Ok (.copy pageBase) vm) :
    Section vm a (.copy pageBase) (a.next vm (.copy pageBase)) := by
  obtain ⟨hi, hs, ht⟩ := ha.copyOut h
  refine ⟨hi, hs, .inl ht, fun a' pc' he => ?_⟩
  change (a.advance vm pageBase).loop = _ at he
  rw [Access.loop] at he
  split at he
  · exact absurd he (by simp)
  · next hrem =>
    obtain ⟨rfl, rfl⟩ := Thread.accessing.inj he
    exact ⟨Nat.mod_lt _ (by decide), hrem, trivial⟩

theorem Access.Ok.section (h : vm.Inv) (ha : a.Ok pc vm) : Section vm a pc (a.next vm pc) := by
  cases pc with
  | check => exact ha.section_check h
  | count i =>
    cases i with
    | none => exact @Section.stay vm vm.countLookup.countMiss a _ _ h ha rfl rfl rfl trivial
    | some i => exact @Section.stay vm vm.countLookup a _ _ h ha rfl rfl rfl ha.pc
  | walk => exact ha.section_walk h
  | add pte result => exact ha.section_add h
  | read p => exact Section.stay h ha rfl rfl rfl (ha.deref h rfl)
  | copy base => exact ha.section_copy h

theorem Pc.Ok.holds {i : ℕ} (h : pc.Ok vm v) (hp : pc.pointer = some (.tlbSlot i)) :
    vm.tlbStore.Holds i v := by
  cases pc with
  | count j =>
    cases j with
    | none => exact absurd hp (by simp [Pc.pointer])
    | some j =>
      obtain rfl := PtePtr.tlbSlot.inj (Option.some.inj hp)
      exact h
  | read q =>
    obtain rfl := Option.some.inj hp
    exact h
  | _ => exact absurd hp (by simp [Pc.pointer])

/-- A call that enters the loop. -/
theorem Call.begin_ok {c : Call} (h : c.begin = some (.accessing a pc)) (vm : Vm) : a.Ok pc vm := by
  -- the loop is entered for a positive size only, with nothing copied yet
  have hloop : ∀ tr (va : UInt32) (size : Int32), ¬ size.toInt ≤ 0 →
      Access.loop ⟨tr, 0, va.toNat, size.toInt.toNat⟩ = .accessing a pc → a.Ok pc vm := by
    intro tr va size hz he
    have hn : size.toInt.toNat ≠ 0 := by omega
    rw [Access.loop, if_neg hn] at he
    obtain ⟨rfl, rfl⟩ := Thread.accessing.inj he
    exact ⟨va.toNat_lt, hn, trivial⟩
  cases c with
  | putData va val size =>
    cases val with
    | none => exact absurd h (by simp [Call.begin])
    | some src =>
      rw [Call.begin] at h
      split at h
      · exact absurd h (by simp)
      · next hz => exact hloop _ va size hz (Option.some.inj h)
  | getData va val size =>
    cases val with
    | none => exact absurd h (by simp [Call.begin])
    | some dst =>
      rw [Call.begin] at h
      split at h
      · exact absurd h (by simp)
      · next hz => exact hloop _ va size hz (Option.some.inj h)
  | _ => exact absurd h (by simp [Call.begin])

end

/-! ### Every interleaving -/

section

variable {s s' : Shared T} {m : Move T}

/-- The two kinds of steps. -/
theorem Shared.step_cases (h : s.step m = some s') :
    (∃ t c th, m = .call t c ∧ c.begin = some th ∧
      s' = { s with threads := update s.threads t th }) ∨
    ∃ t a pc, m = .run t ∧ s.threads t = .accessing a pc ∧
      s' = { vm := (a.next s.vm pc).1, threads := update s.threads t (a.next s.vm pc).2 } := by
  cases m with
  | call t c =>
    have hb : ∀ o : Option (Shared T),
        o = c.begin.map (fun th => { s with threads := update s.threads t th }) → o = some s' →
        ∃ th, c.begin = some th ∧ s' = { s with threads := update s.threads t th } := by
      rintro o rfl ho
      obtain ⟨th, hth, rfl⟩ := Option.map_eq_some_iff.mp ho
      exact ⟨th, hth, rfl⟩
    rw [Shared.step] at h
    split at h
    · exact absurd h (by simp)
    · obtain ⟨th, hth, he⟩ := hb _ rfl h
      exact .inl ⟨t, c, th, rfl, hth, he⟩
  | run t =>
    rw [Shared.step] at h
    split at h
    · next a pc hth => exact .inr ⟨t, a, pc, rfl, hth, (Option.some.inj h).symm⟩
    · exact absurd h (by simp)

theorem Shared.Inv.step (h : s.Inv) (hs : s.step m = some s') (hk : KeepsPointed s m) : s'.Inv := by
  obtain ⟨t, c, th, rfl, hb, rfl⟩ | ⟨t, a, pc, rfl, ht, rfl⟩ := Shared.step_cases hs
  -- a call: the other threads go on as before
  · refine ⟨h.vm, fun t' a pc ht' => ?_⟩
    dsimp only at ht' ⊢
    by_cases htt : t' = t
    · rw [htt, update_self] at ht'
      exact Call.begin_ok (hb.trans (congrArg some ht')) _
    · rw [update_of_ne htt] at ht'
      exact h.threads t' a pc ht'
  -- a section: the other threads keep their pointers, unless it evicts the slot
  · have hsec := (h.threads t a pc ht).section h.vm
    refine ⟨hsec.inv, fun t' b pc' ht' => ?_⟩
    dsimp only at ht' ⊢
    by_cases htt : t' = t
    · rw [htt, update_self] at ht'
      exact hsec.ok b pc' ht'
    · rw [update_of_ne htt] at ht'
      have hb := h.threads t' b pc' ht'
      refine ⟨hb.currVa, hb.bytesRemaining, hb.pc.congr hsec.space fun i hp hi => ?_⟩
      rcases hsec.tlb with he | ⟨pte, result, rfl, he⟩
      · rw [he]
        exact hi
      · rw [he]
        -- the slot goes to a page that had no entry, and then the condition excludes it
        refine hi.tlbAdd pte fun hf hiv => ?_
        rw [hiv] at hp
        exact hk a pte result ht hf t' b pc' ht' hp

end

end MyVm
