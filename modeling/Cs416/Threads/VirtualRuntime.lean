import Cs416.Threads.Charges
import Cs416.Threads.SoundRuns

/-!
# Virtual runtime under CFS

A stint is the time a thread spends on the CPU, from its dispatch to the entry of the scheduler
that ends it. `ledger` reads the stints of a thread off the labels of a run: who was dispatched
and who left the CPU, why, and what the clock showed. `schedule` charges the stints that the timer
ends and no others, so `vruntime` is the time of all stints exactly if the others took no time
(`vruntime_eq_iff`).

Under CFS there is no step for `worker_exit`, after which the source reads through a `NULL`
pointer, and no fallback to the main thread.
-/

open Function Lts

namespace ThreadWorker

namespace Library

/-! ### The ledger -/

/-- A stay on the CPU, by the readings of the clock at its ends. -/
structure Stint where
  start : ℤ
  stop : ℤ
  why : Leave
  deriving DecidableEq, Repr

def Stint.time (x : Stint) : ℤ := timeDiffMicroseconds x.start x.stop

/-- Since when a thread is on the CPU, and its completed stints. -/
structure Account where
  start : Option ℤ
  stints : List Stint
  deriving DecidableEq, Repr

/-- The entry of the scheduler ends the stint. -/
def Account.close (a : Account) (stop : ℤ) (why : Leave) : Account where
  start := none
  stints := a.stints ++ (a.start.map fun start => ⟨start, stop, why⟩).toList

/-- What a step means for the thread with this `id`. -/
def account (id : ℕ) (a : Account) (l : Label) : Account :=
  match l.switch with
  | none => a
  | some sw =>
    let a := if sw.left = id then a.close l.entry sw.why else a
    if sw.next = some id then { a with start := some l.dispatch } else a

section

variable {id left : ℕ} {a : Account} {l : Label} {why : Leave} {next : Option ℕ}

theorem account_stints (h : l.switch = some ⟨left, why, next⟩) :
    (account id a l).stints = if left = id then (a.close l.entry why).stints else a.stints := by
  rw [account, h]
  dsimp only
  split <;> split <;> rfl

theorem account_start (h : l.switch = some ⟨left, why, next⟩) :
    (account id a l).start =
      if next = some id then some l.dispatch else if left = id then none else a.start := by
  rw [account, h]
  dsimp only
  split
  · rfl
  · split <;> rfl

theorem account_other (h : l.switch = some ⟨left, why, next⟩) (hleft : left ≠ id)
    (hnext : next ≠ some id) : account id a l = a := by
  rw [account, h]
  dsimp only
  rw [if_neg hleft, if_neg hnext]

end

/-- The account of the thread with this `id` after a run. -/
def ledger (id : ℕ) (ls : List Label) : Account := ls.foldl (account id) ⟨none, []⟩

theorem ledger_append (id : ℕ) (ls : List Label) (l : Label) :
    ledger id (ls ++ [l]) = account id (ledger id ls) l := by
  rw [ledger, List.foldl_append]
  rfl

/-- The time of all stints. -/
def ran (xs : List Stint) : ℤ := (xs.map Stint.time).sum

theorem ran_append (xs ys : List Stint) : ran (xs ++ ys) = ran xs + ran ys := by
  rw [ran, List.map_append, List.sum_append]
  rfl

/-- The stints that the timer ended. -/
def preemptedStints (xs : List Stint) : List Stint := xs.filter fun x => x.why = .preempted

/-- Time does not run backwards. -/
theorem timeDiffMicroseconds_nonneg {start stop : ℤ} (h : start ≤ stop) :
    0 ≤ timeDiffMicroseconds start stop := by
  unfold timeDiffMicroseconds
  have hstart := Int.emod_lt_of_pos start (by norm_num : (0 : ℤ) < 10 ^ 9)
  have hstart' := Int.emod_nonneg start (by norm_num : (10 ^ 9 : ℤ) ≠ 0)
  have hstop := Int.emod_nonneg stop (by norm_num : (10 ^ 9 : ℤ) ≠ 0)
  have hsec : start / 10 ^ 9 ≤ stop / 10 ^ 9 := Int.ediv_le_ediv (by norm_num) h
  rcases hsec.eq_or_lt with heq | hlt
  · have hnano : start % 10 ^ 9 ≤ stop % 10 ^ 9 := by omega
    have := Int.tdiv_nonneg (sub_nonneg.mpr hnano) (by norm_num : (0 : ℤ) ≤ 1000)
    omega
  · have hneg : -(1000000 : ℤ) ≤ (stop % 10 ^ 9 - start % 10 ^ 9).tdiv 1000 := by
      have hle : (-(10 ^ 9) : ℤ).tdiv 1000 ≤ (stop % 10 ^ 9 - start % 10 ^ 9).tdiv 1000 :=
        Int.tdiv_le_tdiv (by norm_num) (by omega)
      exact le_trans (by decide) hle
    omega

theorem ran_preempted_le {xs : List Stint} (h : ∀ x ∈ xs, 0 ≤ x.time) :
    ran (preemptedStints xs) ≤ ran xs := by
  induction xs with
  | nil => exact le_rfl
  | cons x xs ih =>
    have hx := h x List.mem_cons_self
    have hxs := ih fun y hy => h y (List.mem_cons_of_mem _ hy)
    simp only [preemptedStints, ran] at hxs ⊢
    rw [List.filter_cons]
    split <;> simp only [List.map_cons, List.sum_cons] <;> omega

/-- The stints that the timer did not end make the difference. -/
theorem ran_preempted_eq_iff {xs : List Stint} (h : ∀ x ∈ xs, 0 ≤ x.time) :
    ran (preemptedStints xs) = ran xs ↔ ∀ x ∈ xs, x.why ≠ .preempted → x.time = 0 := by
  induction xs with
  | nil => simp [preemptedStints]
  | cons x xs ih =>
    have hx := h x List.mem_cons_self
    have hxs := ih fun y hy => h y (List.mem_cons_of_mem _ hy)
    have hle := ran_preempted_le fun y hy => h y (List.mem_cons_of_mem _ hy)
    rw [List.forall_mem_cons, ← hxs]
    simp only [preemptedStints, ran] at hle ⊢
    rw [List.filter_cons]
    split
    · next hwhy =>
      simp only [List.map_cons, List.sum_cons, add_right_inj]
      exact (and_iff_right fun hne => absurd (of_decide_eq_true hwhy) hne).symm
    · next hwhy =>
      have hne : x.why ≠ .preempted := fun heq => hwhy (decide_eq_true heq)
      simp only [List.map_cons, List.sum_cons]
      constructor
      · intro heq
        exact ⟨fun _ => by omega, by omega⟩
      · rintro ⟨hzero, heq⟩
        rw [hzero hne, heq, zero_add]

/-- One more stint, after which the thread entered the scheduler. -/
theorem ran_preempted_append (xs : List Stint) (start stop : ℤ) (why : Leave) :
    ran (preemptedStints (xs ++ [⟨start, stop, why⟩])) = ran (preemptedStints xs) +
      if why.state = .running then timeDiffMicroseconds start stop else 0 := by
  rw [preemptedStints, List.filter_append, ran_append]
  cases why <;> simp [preemptedStints, ran, Leave.state, Stint.time]

/-! ### What the scheduler charges -/

section

variable {s s' s₁ : State} {r n t : TcbPtr} {entry disp now : ℤ} {ls : List Label} {l : Label}

/-- What `schedule` charges to `r` for the stint it has ended. -/
def charge (s : State) (r : TcbPtr) (entry : ℤ) : ℤ :=
  if s.stateOf r = .running then timeDiffMicroseconds (s.tcb r).lastStart entry else 0

theorem leave_cfs (hrun : s.runningTcb = some r) (h : leave .cfs s entry = some s') (t : TcbPtr) :
    (s'.tcb t).vruntime = (s.tcb t).vruntime + (if t = r then charge s r entry else 0) ∧
      (s'.tcb t).lastStart = (s.tcb t).lastStart := by
  rw [leave, hrun] at h
  dsimp only at h
  -- only a thread that leaves `RUNNING` is charged
  have hzero : (s.tcb r).state ≠ .running → (if t = r then charge s r entry else 0) = 0 := by
    intro hne
    rw [charge, State.stateOf, if_neg hne, ite_self]
  cases hst : (s.tcb r).state with
  -- `update_vruntime` charges it before the heap takes it back
  | running =>
    have hcharge : charge s r entry = timeDiffMicroseconds (s.tcb r).lastStart entry := if_pos hst
    rw [hst] at h
    have hself : (s.setState r .ready).tcb r = { s.tcb r with state := .ready } :=
      update_self _ _ _
    dsimp only at h
    rw [preempt, updateVruntime, hself, State.setState, State.setTcb_setTcb] at h
    have hk := keysKept_addToScheduler h t
    rw [hk.vruntime, hk.lastStart, hcharge]
    simp only [State.setTcb, update_apply]
    split
    · next htr =>
      rw [htr]
      exact ⟨rfl, rfl⟩
    · exact ⟨(add_zero _).symm, rfl⟩
  | ready =>
    rw [hst] at h
    have hk := keysKept_addToScheduler h t
    rw [hk.vruntime, hk.lastStart, hzero (by rw [hst]; decide), add_zero]
    simp only [State.setTcb, update_apply]
    split
    · next htr =>
      rw [htr]
      exact ⟨rfl, rfl⟩
    · exact ⟨rfl, rfl⟩
  | blocked =>
    rw [hst] at h
    obtain rfl := Option.some.inj h
    rw [hzero (by rw [hst]; decide), add_zero]
    exact ⟨rfl, rfl⟩
  | terminated =>
    rw [hst] at h
    obtain rfl := Option.some.inj h
    rw [hzero (by rw [hst]; decide), add_zero]
    exact ⟨rfl, rfl⟩

theorem schedCfs_starts (h : schedCfs s now = some (s', some n)) (t : TcbPtr) :
    (s'.tcb t).vruntime = (s.tcb t).vruntime ∧
      (s'.tcb t).lastStart = if t = n then now else (s.tcb t).lastStart := by
  unfold schedCfs at h
  dsimp only at h
  split at h
  · exact absurd h (by simp)
  · next r _ =>
    obtain ⟨⟨p, heap⟩, -, heq⟩ := Option.map_eq_some_iff.mp h
    obtain ⟨rfl, hn⟩ := Prod.mk.inj heq
    obtain rfl := Option.some.inj hn
    simp only [State.setTcb, update_apply]
    grind

/-- **What `schedule` does to the accounts** under CFS. -/
theorem schedule_cfs (hrun : s.runningTcb = some r)
    (h : schedule .cfs s entry disp = some (s', some n)) (t : TcbPtr) :
    (s'.tcb t).vruntime = (s.tcb t).vruntime + (if t = r then charge s r entry else 0) ∧
      (s'.tcb t).lastStart = if t = n then disp else (s.tcb t).lastStart := by
  obtain ⟨s₁, hleave, hsched⟩ := Option.bind_eq_some_iff.mp h
  obtain ⟨hv, hstart⟩ := leave_cfs hrun hleave t
  obtain ⟨hv', hstart'⟩ := schedCfs_starts hsched t
  rw [hv', hv, hstart', hstart]
  exact ⟨rfl, rfl⟩

/-! ### Runs -/

/-- **The books** of a run, kept for every worker thread: `vruntime` is the time of the stints
that the timer ended, and `last_start` is when the present one began. -/
structure Books (ls : List Label) (s : State) : Prop where
  vruntime : ∀ t, s.allocated t = true → (s.tcb t).id ≠ 0 →
    (s.tcb t).vruntime = ran (preemptedStints (ledger (s.tcb t).id ls).stints)
  start : ∀ t, s.allocated t = true → (s.tcb t).id ≠ 0 → (ledger (s.tcb t).id ls).start =
    if s.runningTcb = some t then some (s.tcb t).lastStart else none
  /-- The clock has not shown less than at the start of a stint. -/
  clock : ∀ i b, (ledger i ls).start = some b → b ≤ s.clock
  order : ∀ i, ∀ x ∈ (ledger i ls).stints, x.start ≤ x.stop
  /-- There is nothing in the accounts of threads to come. -/
  fresh : ∀ i, s.nextThreadId ≤ i → ledger i ls = ⟨none, []⟩

theorem books_init (h : IsInit s Tcb.zero) : Books [] s where
  vruntime t ha hid := by
    rw [(h.allocated t).mp ha, h.tcb] at hid
    exact absurd rfl hid
  start t ha hid := by
    rw [(h.allocated t).mp ha, h.tcb] at hid
    exact absurd rfl hid
  clock i b hb := absurd hb (by simp [ledger])
  order i x hx := absurd hx (by simp [ledger])
  fresh i _ := rfl

theorem books_returned (h : Books ls s) (hs : Sound s (some r) (queued .cfs s))
    (hret : Returned .cfs s r l s') : Books (ls ++ [l]) s' := by
  have hcall := act_called hret.act
  -- a call that returns records no switch, so the ledger is as before
  have hsame : ∀ i, ledger i (ls ++ [l]) = ledger i ls := by
    intro i
    rw [ledger_append, account, hret.switch]
  have hcpu := hs.cpu r rfl
  have hrun' := ((hret.acted.ret _ rfl).cpu r rfl).2.1
  have hold : ∀ t, s.allocated t = true → SameKeys (s.tcb t) (s'.tcb t) := hcall.keys
  refine ⟨fun t ha hid => ?_, fun t ha hid => ?_, fun i b hb => ?_, fun i => ?_, fun i hi => ?_⟩
  · rw [hsame]
    cases hsa : s.allocated t with
    | true =>
      have hk := hold t hsa
      rw [hk.id] at hid ⊢
      rw [hk.vruntime]
      exact h.vruntime t hsa hid
    -- a thread created by the call has no charge, under an id not used before
    | false =>
      obtain ⟨fresh, hk⟩ := hcall.created t hsa ha
      have hnew : (s'.tcb t).id = s.nextThreadId := hk.id
      rw [hnew, hk.vruntime, h.fresh _ le_rfl]
      rfl
  · rw [hsame, hrun']
    cases hsa : s.allocated t with
    | true =>
      have hk := hold t hsa
      rw [hk.id] at hid ⊢
      rw [hk.lastStart, ← hcpu.2.1]
      exact h.start t hsa hid
    -- the new thread is not on the CPU, and its id has no open interval
    | false =>
      obtain ⟨fresh, hk⟩ := hcall.created t hsa ha
      have hne : ¬ some r = some t := by
        rintro heq
        rw [← Option.some.inj heq, hcpu.2.2] at hsa
        exact absurd hsa (by decide)
      have hnew : (s'.tcb t).id = s.nextThreadId := hk.id
      rw [hnew, h.fresh _ le_rfl, if_neg hne]
  · rw [hsame] at hb
    rw [hcall.clock]
    exact h.clock i b hb
  · rw [hsame]
    exact h.order i
  · rw [hsame]
    exact h.fresh i (hret.acted.next.trans hi)

theorem books_switched {why : Leave} (h : Books ls s) (hs : Sound s (some r) (queued .cfs s))
    (hsw : Switched .cfs s r l s' s₁ why n) : Books (ls ++ [l]) s' := by
  have hcall := act_called hsw.act
  have hstep := hsw.stepped
  have hcpu := hs.cpu r rfl
  obtain ⟨hrun, hpark, halloc, hnext, hstate⟩ := hsw.acted.enter why rfl
  obtain ⟨s₂, hsched, hsch, rfl⟩ := hsw.schedule
  have hcharge := schedule_cfs hrun hsched
  have hkeep := hsch.keeps
  have halloc' : s₂.allocated = s.allocated := hkeep.allocated.trans halloc
  have hid : ∀ t, s.allocated t = true → (s₂.tcb t).id = (s.tcb t).id := fun t ha =>
    (hkeep.same t).id.trans (hcall.keys t ha).id
  have hnid := (hstep.switched _ hsw.switch).2.2
  have hrt : ∀ t, s.allocated t = true → ((s.tcb r).id = (s.tcb t).id ↔ t = r) := fun t ha =>
    ⟨fun heq => hs.ids t r ha hcpu.2.2 heq.symm, fun heq => by rw [heq]⟩
  have hnt : ∀ t, s.allocated t = true → ((s₂.tcb n).id = (s.tcb t).id ↔ t = n) := fun t ha =>
    ⟨fun heq => hs.ids t n ha hnid.1 (hnid.2.2 ▸ heq).symm, fun heq => by rw [heq, hnid.2.2]⟩
  -- the stint of `r` began at its `last_start`, unless it is the main thread's
  have hclose : ∀ t, s.allocated t = true → (s.tcb t).id ≠ 0 → t = r →
      ((ledger (s.tcb t).id ls).close l.entry why).stints =
        (ledger (s.tcb t).id ls).stints ++ [⟨(s.tcb t).lastStart, l.entry, why⟩] := by
    rintro t ha hne rfl
    rw [Account.close, h.start t ha hne, if_pos hcpu.2.1]
    rfl
  refine ⟨fun t ha hne => ?_, fun t ha hne => ?_, fun i b hb => ?_, fun i x hx => ?_,
    fun i hi => ?_⟩
  · dsimp only at ha hne ⊢
    rw [halloc'] at ha
    rw [hid t ha] at hne ⊢
    rw [(hcharge t).1, (hcall.keys t ha).vruntime, h.vruntime t ha hne, ledger_append,
      account_stints hsw.switch]
    simp only [hrt t ha]
    split
    · next htr =>
      rw [hclose t ha hne htr, ran_preempted_append, charge, hstate,
        (hcall.keys r hcpu.2.2).lastStart, htr]
    · rw [add_zero]
  · dsimp only at ha hne ⊢
    rw [halloc'] at ha
    rw [hid t ha] at hne ⊢
    rw [ledger_append, account_start hsw.switch, (hcharge t).2, hsch.runningTcb,
      h.start t ha hne, hcpu.2.1]
    simp only [hrt t ha, hnt t ha, Option.some.injEq, eq_comm (a := n), eq_comm (a := r)]
    grind
  · rw [ledger_append, account_start hsw.switch] at hb
    split at hb
    · rw [← Option.some.inj hb]
    split at hb
    · exact absurd hb (by simp)
    · exact (h.clock i b hb).trans (hsw.entry.trans hsw.dispatch)
  · rw [ledger_append, account_stints hsw.switch] at hx
    split at hx
    · rcases List.mem_append.mp hx with hx | hx
      · exact h.order i x hx
      · obtain ⟨b, hb, rfl⟩ := Option.map_eq_some_iff.mp (Option.mem_toList.mp hx)
        exact (h.clock i b hb).trans hsw.entry
    · exact h.order i x hx
  · have hr := hs.fresh r hcpu.2.2
    have hn := hs.fresh n hnid.1
    have hi' : s.nextThreadId ≤ i := by
      rw [← hnext, ← hkeep.nextThreadId]
      exact hi
    rw [ledger_append, account_other hsw.switch (hr.trans_le hi').ne, h.fresh i hi']
    rw [hnid.2.2]
    exact fun heq => (hn.trans_le hi').ne (Option.some.inj heq)

theorem run_books (hr : Run (library .cfs (· = Tcb.zero)) ls s) : Books ls s := by
  have hr := orderly_of_heap (.inr rfl) hr
  refine hr.history (I := Books) ?_ ?_
  · rintro s ⟨fresh, rfl, hinit⟩
    exact books_init hinit
  · intro ls s l s' hr h hs
    obtain ⟨r, hsound⟩ := orderly_sound hr
    rcases orderly_cases hsound hs with hret | ⟨s₁, why, n, hsw⟩
    · exact books_returned h hsound hret
    · exact books_switched h hsound hsw

/-- **`vruntime` is the time a worker thread has run** if and only if the stints that the timer
did not end took no time. -/
theorem vruntime_eq_iff (hr : Run (library .cfs (· = Tcb.zero)) ls s)
    (ha : s.allocated t = true) (hid : (s.tcb t).id ≠ 0) :
    (s.tcb t).vruntime = ran (ledger (s.tcb t).id ls).stints ↔
      ∀ x ∈ (ledger (s.tcb t).id ls).stints, x.why ≠ .preempted → x.time = 0 := by
  have hbooks := run_books hr
  rw [hbooks.vruntime t ha hid]
  exact ran_preempted_eq_iff fun x hx => timeDiffMicroseconds_nonneg (hbooks.order _ x hx)

end

/-- Thread `1` is dispatched, and yields after five milliseconds. -/
def childYields : List (Op × ℤ × ℤ) :=
  [(.create 1 Tcb.zero, 0, 0), (.tick, 1000, 1000), (.yield, 5001000, 5001000)]

theorem childYields_run : ∃ ls s, Run (library .cfs (· = Tcb.zero)) ls s ∧
    s.allocated 1 = true ∧ (s.tcb 1).id = 1 ∧ (s.tcb 1).vruntime = 0 ∧
    (ledger 1 ls).stints = [⟨1000, 5001000, .yielded⟩] := by
  have hrun : (performIf (fun _ _ => True) .cfs .first childYields).map
      (fun y => (y.2.allocated 1, (y.2.tcb 1).id, (y.2.tcb 1).vruntime, (ledger 1 y.1).stints))
      = some (true, 1, 0, [⟨1000, 5001000, .yielded⟩]) := by decide +kernel
  obtain ⟨⟨ls, s⟩, hperf, heq⟩ := Option.map_eq_some_iff.mp hrun
  obtain ⟨ha, heq⟩ := Prod.mk.inj heq
  obtain ⟨hid, heq⟩ := Prod.mk.inj heq
  obtain ⟨hv, hl⟩ := Prod.mk.inj heq
  exact ⟨ls, s, (run_first (by simp [childYields, Op.Uses]) hperf).of_restrict, ha, hid, hv, hl⟩

theorem vruntime_eq_iff_childYields : ∃ ls s, Run (library .cfs (· = Tcb.zero)) ls s ∧
    ((s.tcb 1).vruntime = ran (ledger (s.tcb 1).id ls).stints ↔
      ∀ x ∈ (ledger (s.tcb 1).id ls).stints, x.why ≠ .preempted → x.time = 0) := by
  obtain ⟨ls, s, hr, ha, hid, -⟩ := childYields_run
  exact ⟨ls, s, hr, vruntime_eq_iff hr ha (by rw [hid]; decide)⟩

/-- **A yield is not charged.** Thread `1` has run for five milliseconds, and its `vruntime` is
`0`. -/
theorem yield_not_charged : ¬ ∀ (ls : List Label) (s : State) (t : TcbPtr),
    Run (library .cfs (· = Tcb.zero)) ls s → s.allocated t = true → (s.tcb t).id ≠ 0 →
    (s.tcb t).vruntime = ran (ledger (s.tcb t).id ls).stints := by
  intro h
  obtain ⟨ls, s, hr, ha, hid, hv, hl⟩ := childYields_run
  have heq := h ls s 1 hr ha (by rw [hid]; decide)
  rw [hv, hid, hl] at heq
  exact absurd heq (by decide)

end Library

end ThreadWorker
