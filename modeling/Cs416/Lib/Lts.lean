import Mathlib.Tactic

/-!
# Runs of a labelled transition system

A system has initial states and a labelled step relation. `Run sys ls s` is a finite run
that performed the labels `ls`, oldest first, and ended in `s`. Everything proved about a
program over whole runs goes through the two rules below: `Run.invariant` for a state
predicate and `Run.history` for a predicate that also looks at the labels performed so far.

`startAt` are the runs that go on from a given state. `restrict` keeps the steps that meet a
side condition. A property of a restricted system is the property of every run *whose steps
all meet the condition*, and `Run.of_restrict` says that such a run is a run of the original
system.
-/

namespace Lts

/-- Initial states and a labelled step relation. -/
structure System (State Label : Type*) where
  init : State → Prop
  step : State → Label → State → Prop

variable {State Label : Type*}

/-- A finite run: the labels performed, oldest first, and the state reached. -/
inductive Run (sys : System State Label) : List Label → State → Prop
  | start {s : State} : sys.init s → Run sys [] s
  | step {ls : List Label} {s s' : State} {l : Label} :
      Run sys ls s → sys.step s l s' → Run sys (ls ++ [l]) s'

/-- The states some run reaches. -/
def Reachable (sys : System State Label) (s : State) : Prop := ∃ ls, Run sys ls s

/-- The sub-system of the steps that meet `C`. -/
def System.restrict (sys : System State Label) (C : State → Label → Prop) :
    System State Label where
  init := sys.init
  step s l s' := sys.step s l s' ∧ C s l

/-- The runs that go on from `s₀`. -/
def System.startAt (sys : System State Label) (s₀ : State) : System State Label where
  init s := s = s₀
  step := sys.step

variable {sys : System State Label}

theorem Reachable.start {s : State} (h : sys.init s) : Reachable sys s := ⟨[], .start h⟩

theorem Reachable.step {s s' : State} {l : Label} (h : Reachable sys s)
    (hs : sys.step s l s') : Reachable sys s' := by
  obtain ⟨ls, hr⟩ := h
  exact ⟨ls ++ [l], hr.step hs⟩

/-- A predicate that holds of the history of every initial state and is carried over every
step holds of every run. -/
theorem Run.history {I : List Label → State → Prop} (h0 : ∀ s, sys.init s → I [] s)
    (hstep : ∀ ls s l s', Run sys ls s → I ls s → sys.step s l s' → I (ls ++ [l]) s')
    {ls : List Label} {s : State} (hr : Run sys ls s) : I ls s := by
  induction hr with
  | start h => exact h0 _ h
  | step hr hs ih => exact hstep _ _ _ _ hr ih hs

/-- The invariant rule. -/
theorem Run.invariant {I : State → Prop} (h0 : ∀ s, sys.init s → I s)
    (hstep : ∀ s l s', I s → sys.step s l s' → I s')
    {ls : List Label} {s : State} (hr : Run sys ls s) : I s :=
  hr.history (I := fun _ s => I s) h0 fun _ s l s' _ hI hs => hstep s l s' hI hs

theorem Reachable.invariant {I : State → Prop} (h0 : ∀ s, sys.init s → I s)
    (hstep : ∀ s l s', I s → sys.step s l s' → I s') {s : State}
    (hr : Reachable sys s) : I s := by
  obtain ⟨ls, hr⟩ := hr
  exact hr.invariant h0 hstep

/-- A restricted run is a run. -/
theorem Run.of_restrict {C : State → Label → Prop} {ls : List Label} {s : State}
    (hr : Run (sys.restrict C) ls s) : Run sys ls s := by
  induction hr with
  | start h => exact .start h
  | step _ hs ih => exact ih.step hs.1

theorem Run.restrict_mono {C C' : State → Label → Prop} (h : ∀ s l, C s l → C' s l)
    {ls : List Label} {s : State} (hr : Run (sys.restrict C) ls s) :
    Run (sys.restrict C') ls s := by
  induction hr with
  | start h0 => exact .start h0
  | step _ hs ih => exact ih.step ⟨hs.1, h _ _ hs.2⟩

/-- Performs a list of labels with a step function. -/
def steps (step : State → Label → Option State) : State → List Label → Option State
  | s, [] => some s
  | s, l :: ls => (step s l).bind fun s' => steps step s' ls

/-- The step function of a restricted system. -/
def stepIf (C : State → Label → Prop) [∀ s l, Decidable (C s l)]
    (step : State → Label → Option State) (s : State) (l : Label) : Option State :=
  if C s l then step s l else none

theorem Run.steps {step : State → Label → Option State}
    (hstep : ∀ s l s', step s l = some s' → sys.step s l s') {ls ls' : List Label}
    {s s' : State} (hr : Run sys ls s) (h : Lts.steps step s ls' = some s') :
    Run sys (ls ++ ls') s' := by
  induction ls' generalizing ls s with
  | nil =>
    rw [List.append_nil, ← Option.some.inj h]
    exact hr
  | cons l ls' ih =>
    obtain ⟨u, hu, h⟩ := Option.bind_eq_some_iff.mp h
    rw [List.append_cons]
    exact ih (hr.step (hstep s l u hu)) h

/-- A computed sequence of steps that all meet the condition is a run of the restricted
system. -/
theorem Run.stepsIf {C : State → Label → Prop} [∀ s l, Decidable (C s l)]
    {step : State → Label → Option State}
    (hstep : ∀ s l s', step s l = some s' → sys.step s l s') {ls : List Label} {s s' : State}
    (h0 : sys.init s) (h : Lts.steps (stepIf C step) s ls = some s') :
    Run (sys.restrict C) ls s' := by
  have hr : Run (sys.restrict C) [] s := .start h0
  have hif : ∀ s l s', Lts.stepIf C step s l = some s' → (sys.restrict C).step s l s' := by
    intro s l s' hs
    rw [Lts.stepIf] at hs
    split at hs
    · rename_i hC
      exact ⟨hstep s l s' hs, hC⟩
    · exact absurd hs (by simp)
  exact hr.steps hif h

end Lts
