import Cs416.Lib.Lts
import Mathlib.Data.Finset.Basic
import Mathlib.Data.Fintype.Basic
import Mathlib.Logic.Relation

/-!
# Threads that take mutexes

A `Cmd` is what is left of a program when everything is forgotten but its mutexes, its accesses
to shared data and its control flow: which branch is taken and how often a loop runs is open.
Any number of threads run such commands (`threads`); `pthread_mutex_lock` waits until the mutex
has no owner.

A `Discipline` ranks the mutexes and says under which mutexes an access is allowed. `wp` is the
weakest precondition of a command for the set of mutexes that the thread holds: a mutex is taken
only above those already held, only a mutex that is held is given up, an access is made under
the mutexes it needs, and a routine returns with the mutexes it was called with. For a closed
program it is decidable.

When every thread meets its precondition, then over every run
* no thread waits for a mutex of its own or gives up the mutex of another (`not_own`,
  `owner_of_unlock`);
* every access is made under the mutexes it needs (`allows_of_touch`);
* whoever waits, waits in the end for a thread that can go on (`exists_unblocked`).
-/

open Lts Function

namespace LockProgram

/-- What a program does to mutexes and shared data. -/
inductive Cmd (L S : Type*)
  | skip
  | lock (m : L)
  | unlock (m : L)
  | touch (a : S)
  | seq (c d : Cmd L S)
  | choice (c d : Cmd L S)
  | loop (c : Cmd L S)
  | call (body : Cmd L S)
  | ret
  deriving DecidableEq

variable {L S T : Type*}

/-- Commands one after another. -/
def block : List (Cmd L S) → Cmd L S
  | [] => .skip
  | c :: cs => .seq c (block cs)

/-- What a thread has left to do: its current routine, then the callers. -/
abbrev Thread (L S : Type*) := List (List (Cmd L S))

/-- What one step of a thread does to the outside. -/
inductive Action (L S : Type*)
  | silent
  | lock (m : L)
  | unlock (m : L)
  | touch (a : S)
  deriving DecidableEq

/-- One step of a thread. -/
inductive Next : Thread L S → Action L S → Thread L S → Prop
  | skip {k fs} : Next ((.skip :: k) :: fs) .silent (k :: fs)
  | lock {m k fs} : Next ((.lock m :: k) :: fs) (.lock m) (k :: fs)
  | unlock {m k fs} : Next ((.unlock m :: k) :: fs) (.unlock m) (k :: fs)
  | touch {a k fs} : Next ((.touch a :: k) :: fs) (.touch a) (k :: fs)
  | seq {c d k fs} : Next ((.seq c d :: k) :: fs) .silent ((c :: d :: k) :: fs)
  | left {c d k fs} : Next ((.choice c d :: k) :: fs) .silent ((c :: k) :: fs)
  | right {c d k fs} : Next ((.choice c d :: k) :: fs) .silent ((d :: k) :: fs)
  | leave {c k fs} : Next ((.loop c :: k) :: fs) .silent (k :: fs)
  | again {c k fs} : Next ((.loop c :: k) :: fs) .silent ((c :: .loop c :: k) :: fs)
  | call {body k fs} : Next ((.call body :: k) :: fs) .silent ([body] :: k :: fs)
  | ret {k fs} : Next ((.ret :: k) :: fs) .silent fs
  | fall {fs} : Next ([] :: fs) .silent fs

/-- A thread that is not finished has a next step. -/
theorem exists_next {th : Thread L S} (h : th ≠ []) : ∃ a th', Next th a th' := by
  obtain - | ⟨k, fs⟩ := th
  · exact absurd rfl h
  obtain - | ⟨c, k⟩ := k
  · exact ⟨_, _, .fall⟩
  cases c with
  | skip => exact ⟨_, _, .skip⟩
  | lock m => exact ⟨_, _, .lock⟩
  | unlock m => exact ⟨_, _, .unlock⟩
  | touch a => exact ⟨_, _, .touch⟩
  | seq c d => exact ⟨_, _, .seq⟩
  | choice c d => exact ⟨_, _, .left⟩
  | loop c => exact ⟨_, _, .leave⟩
  | call body => exact ⟨_, _, .call⟩
  | ret => exact ⟨_, _, .ret⟩

/-- The steps of a thread on its own, with what they do to the outside. -/
inductive Performs : Thread L S → List (Action L S) → Thread L S → Prop
  | done {th} : Performs th [] th
  | next {th th' th'' a as} : Next th a th' → Performs th' as th'' → Performs th (a :: as) th''

/-- A step does not look at the callers. -/
theorem Next.append {th th' : Thread L S} {a : Action L S} (h : Next th a th')
    (callers : Thread L S) : Next (th ++ callers) a (th' ++ callers) := by
  cases h with
  | skip => exact .skip
  | lock => exact .lock
  | unlock => exact .unlock
  | touch => exact .touch
  | seq => exact .seq
  | left => exact .left
  | right => exact .right
  | leave => exact .leave
  | again => exact .again
  | call => exact .call
  | ret => exact .ret
  | fall => exact .fall

theorem Performs.append {th th' : Thread L S} {as : List (Action L S)} (h : Performs th as th')
    (callers : Thread L S) : Performs (th ++ callers) as (th' ++ callers) := by
  induction h with
  | done => exact .done
  | next hn _ ih => exact .next (hn.append callers) ih

/-- Follows a thread to `target`, taking the decisions in order; the actions on the way. -/
def follow [DecidableEq L] [DecidableEq S] (target : Thread L S) :
    ℕ → List Bool → Thread L S → Option (List (Action L S))
  | 0, _, _ => none
  | n + 1, ds, th =>
    if ds = [] ∧ th = target then some [] else
    match th, ds with
    | (.skip :: k) :: fs, ds => (follow target n ds (k :: fs)).map (.silent :: ·)
    | (.lock m :: k) :: fs, ds => (follow target n ds (k :: fs)).map (.lock m :: ·)
    | (.unlock m :: k) :: fs, ds => (follow target n ds (k :: fs)).map (.unlock m :: ·)
    | (.touch a :: k) :: fs, ds => (follow target n ds (k :: fs)).map (.touch a :: ·)
    | (.seq c d :: k) :: fs, ds => (follow target n ds ((c :: d :: k) :: fs)).map (.silent :: ·)
    | (.choice c d :: k) :: fs, b :: ds =>
      (follow target n ds (((if b then c else d) :: k) :: fs)).map (.silent :: ·)
    | (.loop c :: k) :: fs, b :: ds =>
      (follow target n ds ((if b then c :: .loop c :: k else k) :: fs)).map (.silent :: ·)
    | (.call body :: k) :: fs, ds => (follow target n ds ([body] :: k :: fs)).map (.silent :: ·)
    | (.ret :: _) :: fs, ds => (follow target n ds fs).map (.silent :: ·)
    | [] :: fs, ds => (follow target n ds fs).map (.silent :: ·)
    | _, _ => none

/-- A thread that is followed performs the actions. -/
theorem Performs.of_follow [DecidableEq L] [DecidableEq S] {target : Thread L S} (n : ℕ)
    (ds : List Bool) {th : Thread L S} {as : List (Action L S)}
    (h : follow target n ds th = some as) : Performs th as target := by
  -- every branch makes one step of `Next`
  induction n generalizing ds th as with
  | zero => exact absurd h (by simp [follow])
  | succ n ih =>
    unfold follow at h
    split at h
    · rename_i hdone
      obtain rfl := Option.some.inj h
      rw [hdone.2]
      exact .done
    split at h
    case h_11 => exact absurd h (by simp)
    all_goals
      obtain ⟨as', has, rfl⟩ := Option.map_eq_some_iff.mp h
      refine .next ?_ (ih _ has)
    · exact .skip
    · exact .lock
    · exact .unlock
    · exact .touch
    · exact .seq
    · split
      · exact .left
      · exact .right
    · split
      · exact .again
      · exact .leave
    · exact .call
    · exact .ret
    · exact .fall

/-! ### The system -/

/-- The owners of the mutexes and the threads. -/
structure State (T L S : Type*) where
  owner : L → Option T
  threads : T → Thread L S

/-- The mutexes of `t`. -/
def State.held [Fintype L] [DecidableEq T] (s : State T L S) (t : T) : Finset L :=
  Finset.univ.filter fun m => s.owner m = some t

theorem State.mem_held [Fintype L] [DecidableEq T] {s : State T L S} {t : T} {m : L} :
    m ∈ s.held t ↔ s.owner m = some t := by
  rw [held, Finset.mem_filter]
  exact and_iff_right (Finset.mem_univ m)

variable [DecidableEq L] [DecidableEq T]

/-- One step of one thread. -/
inductive Step (s : State T L S) : T × Action L S → State T L S → Prop
  | silent {t th} (h : Next (s.threads t) .silent th) :
      Step s (t, .silent) { s with threads := update s.threads t th }
  | lock {t m th} (h : Next (s.threads t) (.lock m) th) (hfree : s.owner m = none) :
      Step s (t, .lock m)
        { owner := update s.owner m (some t), threads := update s.threads t th }
  | unlock {t m th} (h : Next (s.threads t) (.unlock m) th) :
      Step s (t, .unlock m)
        { owner := update s.owner m none, threads := update s.threads t th }
  | touch {t a th} (h : Next (s.threads t) (.touch a) th) :
      Step s (t, .touch a) { s with threads := update s.threads t th }

/-- No mutex has an owner, and thread `t` begins the program `prog t`. -/
def State.start (prog : T → Cmd L S) : State T L S where
  owner _ := none
  threads t := [[prog t]]

/-- The runs of the programs. -/
def threads (prog : T → Cmd L S) : System (State T L S) (T × Action L S) where
  init s := s = .start prog
  step := Step

/-- `t` is about to take a mutex that belongs to `u`. -/
def State.WaitsFor (s : State T L S) (t u : T) : Prop :=
  ∃ m th, Next (s.threads t) (.lock m) th ∧ s.owner m = some u

/-- `t` can make a step. -/
def State.CanStep (s : State T L S) (t : T) : Prop := ∃ a s', Step s (t, a) s'

/-- A thread that is not finished can make a step or waits for another. -/
theorem State.canStep_or_waitsFor {s : State T L S} {t : T} (hne : s.threads t ≠ []) :
    s.CanStep t ∨ ∃ u, s.WaitsFor t u := by
  obtain ⟨a, th, hn⟩ := exists_next hne
  cases a with
  | silent => exact .inl ⟨_, _, .silent hn⟩
  | unlock m => exact .inl ⟨_, _, .unlock hn⟩
  | touch a => exact .inl ⟨_, _, .touch hn⟩
  | lock m =>
    cases hm : s.owner m with
    | none => exact .inl ⟨_, _, .lock hn hm⟩
    | some u => exact .inr ⟨u, m, th, hn, hm⟩

/-! ### The discipline -/

/-- An order of the mutexes, and the mutexes under which an access is made. -/
structure Discipline (L S : Type*) where
  rank : L → ℕ
  allows : S → Finset L → Bool

variable (D : Discipline L S)

namespace Discipline

/-- The weakest precondition of a command of a routine that was called with the mutexes
`entry`: `Q` holds of the mutexes behind the command. -/
def wp (entry : Finset L) : Cmd L S → (Finset L → Prop) → Finset L → Prop
  | .skip, Q, h => Q h
  | .lock m, Q, h => (∀ x ∈ h, D.rank x < D.rank m) ∧ Q (insert m h)
  | .unlock m, Q, h => m ∈ h ∧ Q (h.erase m)
  | .touch a, Q, h => D.allows a h = true ∧ Q h
  | .seq c d, Q, h => wp entry c (wp entry d Q) h
  | .choice c d, Q, h => wp entry c Q h ∧ wp entry d Q h
  | .loop c, Q, h => wp entry c (fun h' => h' = h) h ∧ Q h
  | .call body, Q, h => wp h body (fun h' => h' = h) h ∧ Q h
  | .ret, _, h => h = entry

instance decidableWp (entry : Finset L) (c : Cmd L S) (Q : Finset L → Prop) [DecidablePred Q]
    (h : Finset L) : Decidable (D.wp entry c Q h) :=
  match c with
  | .skip => inferInstanceAs (Decidable (Q h))
  | .lock m => inferInstanceAs (Decidable ((∀ x ∈ h, D.rank x < D.rank m) ∧ Q (insert m h)))
  | .unlock m => inferInstanceAs (Decidable (m ∈ h ∧ Q (h.erase m)))
  | .touch a => inferInstanceAs (Decidable (D.allows a h = true ∧ Q h))
  | .seq c d =>
    haveI : DecidablePred (D.wp entry d Q) := fun h => decidableWp entry d Q h
    decidableWp entry c (D.wp entry d Q) h
  | .choice c d =>
    haveI := decidableWp entry c Q h
    haveI := decidableWp entry d Q h
    inferInstanceAs (Decidable (D.wp entry c Q h ∧ D.wp entry d Q h))
  | .loop c =>
    haveI := decidableWp entry c (fun h' => h' = h) h
    inferInstanceAs (Decidable (D.wp entry c (fun h' => h' = h) h ∧ Q h))
  | .call body =>
    haveI := decidableWp h body (fun h' => h' = h) h
    inferInstanceAs (Decidable (D.wp h body (fun h' => h' = h) h ∧ Q h))
  | .ret => inferInstanceAs (Decidable (h = entry))

variable {D}

theorem wp_mono {entry h : Finset L} {c : Cmd L S} {Q Q' : Finset L → Prop}
    (hQ : ∀ h, Q h → Q' h) (hc : D.wp entry c Q h) : D.wp entry c Q' h := by
  induction c generalizing h Q Q' with
  | skip => exact hQ h hc
  | lock m => exact ⟨hc.1, hQ _ hc.2⟩
  | unlock m => exact ⟨hc.1, hQ _ hc.2⟩
  | touch a => exact ⟨hc.1, hQ _ hc.2⟩
  | seq c d ihc ihd => exact ihc (fun _ => ihd hQ) hc
  | choice c d ihc ihd => exact ⟨ihc hQ hc.1, ihd hQ hc.2⟩
  | loop c ih => exact ⟨hc.1, hQ _ hc.2⟩
  | call body ih => exact ⟨hc.1, hQ _ hc.2⟩
  | ret => exact hc

variable (D)

/-- The precondition of the rest of a routine: it ends with the mutexes it was called with. -/
def wps (entry : Finset L) : List (Cmd L S) → Finset L → Prop
  | [], h => h = entry
  | c :: k, h => D.wp entry c (wps entry k) h

/-- A thread with the mutexes `h` meets its precondition, and at its end it holds nothing. -/
def Fits : Thread L S → Finset L → Prop
  | [], h => h = ∅
  | k :: fs, h => ∃ entry, D.wps entry k h ∧ Fits fs entry

/-- What a step needs, and what the thread holds after it. -/
def Permits : Action L S → Finset L → Finset L → Prop
  | .silent, h, h' => h' = h
  | .lock m, h, h' => (∀ x ∈ h, D.rank x < D.rank m) ∧ h' = insert m h
  | .unlock m, h, h' => m ∈ h ∧ h' = h.erase m
  | .touch a, h, h' => D.allows a h = true ∧ h' = h

variable {D}

/-- **One step of a thread.** -/
theorem Fits.next {th th' : Thread L S} {a : Action L S} {h : Finset L} (hf : D.Fits th h)
    (hn : Next th a th') : ∃ h', D.Permits a h h' ∧ D.Fits th' h' := by
  cases hn with
  | skip => exact ⟨h, rfl, hf⟩
  | lock =>
    obtain ⟨entry, ⟨hrank, hk⟩, hfs⟩ := hf
    exact ⟨_, ⟨hrank, rfl⟩, entry, hk, hfs⟩
  | unlock =>
    obtain ⟨entry, ⟨hmem, hk⟩, hfs⟩ := hf
    exact ⟨_, ⟨hmem, rfl⟩, entry, hk, hfs⟩
  | touch =>
    obtain ⟨entry, ⟨hallow, hk⟩, hfs⟩ := hf
    exact ⟨h, ⟨hallow, rfl⟩, entry, hk, hfs⟩
  | seq => exact ⟨h, rfl, hf⟩
  | left =>
    obtain ⟨entry, hk, hfs⟩ := hf
    exact ⟨h, rfl, entry, hk.1, hfs⟩
  | right =>
    obtain ⟨entry, hk, hfs⟩ := hf
    exact ⟨h, rfl, entry, hk.2, hfs⟩
  | leave =>
    obtain ⟨entry, hk, hfs⟩ := hf
    exact ⟨h, rfl, entry, hk.2, hfs⟩
  | again =>
    -- behind the body the thread holds what it held at the head
    obtain ⟨entry, hk, hfs⟩ := hf
    refine ⟨h, rfl, entry, wp_mono ?_ hk.1, hfs⟩
    intro h' heq
    rw [heq]
    exact hk
  | call =>
    obtain ⟨entry, hk, hfs⟩ := hf
    exact ⟨h, rfl, h, hk.1, entry, hk.2, hfs⟩
  | ret =>
    obtain ⟨entry, hk, hfs⟩ := hf
    obtain rfl : h = entry := hk
    exact ⟨h, rfl, hfs⟩
  | fall =>
    obtain ⟨entry, hk, hfs⟩ := hf
    obtain rfl : h = entry := hk
    exact ⟨h, rfl, hfs⟩

end Discipline

/-! ### Runs -/

section Runs

variable [Fintype L] {D}

/-- Every thread meets its precondition. -/
def State.Fits (D : Discipline L S) (s : State T L S) : Prop := ∀ t, D.Fits (s.threads t) (s.held t)

theorem State.held_lock {s : State T L S} {m : L} (hfree : s.owner m = none) (t u : T)
    (th : T → Thread L S) :
    State.held { owner := update s.owner m (some t), threads := th } u
      = if u = t then insert m (s.held u) else s.held u := by
  ext x
  rw [mem_held]
  dsimp only
  by_cases hx : x = m
  · subst hx
    rw [update_self]
    split
    · rename_i hu
      exact ⟨fun _ => Finset.mem_insert_self _ _, fun _ => by rw [hu]⟩
    · rename_i hu
      rw [mem_held, hfree]
      exact ⟨fun h => absurd (Option.some.inj h).symm hu, fun h => absurd h (by simp)⟩
  · rw [update_of_ne hx, ← mem_held]
    split
    · exact ⟨Finset.mem_insert_of_mem, fun h => Finset.mem_of_mem_insert_of_ne h hx⟩
    · exact Iff.rfl

theorem State.held_unlock {s : State T L S} {m : L} {t : T} (hm : s.owner m = some t) (u : T)
    (th : T → Thread L S) :
    State.held { owner := update s.owner m none, threads := th } u
      = if u = t then (s.held u).erase m else s.held u := by
  ext x
  rw [mem_held]
  dsimp only
  by_cases hx : x = m
  · subst hx
    rw [update_self]
    split
    · exact ⟨fun h => absurd h (by simp), fun h => absurd h (Finset.notMem_erase x _)⟩
    · rename_i hu
      rw [mem_held, hm]
      exact ⟨fun h => absurd h (by simp), fun h => absurd (Option.some.inj h).symm hu⟩
  · rw [update_of_ne hx, ← mem_held]
    split
    · exact ⟨fun h => Finset.mem_erase_of_ne_of_mem hx h, Finset.mem_of_mem_erase⟩
    · exact Iff.rfl

/-- One thread moves on with the mutexes `h`, the others keep theirs. -/
theorem State.Fits.update {s : State T L S} (hs : s.Fits D) {t : T} {th : Thread L S}
    {owner : L → Option T} {h : Finset L} (hf : D.Fits th h)
    (hheld : ∀ u, State.held { owner := owner, threads := Function.update s.threads t th } u
      = if u = t then h else s.held u) :
    State.Fits D { owner := owner, threads := Function.update s.threads t th } := by
  intro u
  rw [hheld]
  by_cases hu : u = t
  · subst hu
    rw [if_pos rfl]
    show D.Fits (Function.update s.threads u th u) h
    rw [update_self]
    exact hf
  · rw [if_neg hu]
    show D.Fits (Function.update s.threads t th u) (s.held u)
    rw [update_of_ne hu]
    exact hs u

/-- **One step of the system.** -/
theorem State.Fits.step {s s' : State T L S} {l : T × Action L S} (hs : s.Fits D)
    (h : Step s l s') : s'.Fits D := by
  cases h with
  | @silent t th hn =>
    obtain ⟨h', rfl, hf⟩ := (hs t).next hn
    refine hs.update hf fun u => ?_
    split
    · rename_i hu
      rw [hu]
      rfl
    · rfl
  | @lock t m th hn hfree =>
    obtain ⟨h', ⟨-, rfl⟩, hf⟩ := (hs t).next hn
    refine hs.update hf fun u => ?_
    rw [held_lock hfree]
    split
    · rename_i hu
      rw [hu]
    · rfl
  | @unlock t m th hn =>
    obtain ⟨h', ⟨hmem, rfl⟩, hf⟩ := (hs t).next hn
    refine hs.update hf fun u => ?_
    rw [held_unlock (mem_held.mp hmem)]
    split
    · rename_i hu
      rw [hu]
    · rfl
  | @touch t a th hn =>
    obtain ⟨h', ⟨-, rfl⟩, hf⟩ := (hs t).next hn
    refine hs.update hf fun u => ?_
    split
    · rename_i hu
      rw [hu]
      rfl
    · rfl

/-- **Runs.** Every thread meets its precondition in every state that is reached. -/
theorem fits_of_reachable {prog : T → Cmd L S}
    (hprog : ∀ t, D.wp ∅ (prog t) (fun h => h = ∅) ∅) {s : State T L S}
    (hr : Reachable (threads prog) s) : s.Fits D := by
  refine hr.invariant ?_ fun s l s' hs h => hs.step h
  rintro s rfl t
  have hheld : (State.start prog).held t = ∅ := by
    ext m
    rw [State.mem_held]
    exact ⟨fun h => absurd h (by simp [State.start]), fun h => absurd h (Finset.notMem_empty m)⟩
  rw [hheld]
  exact ⟨∅, hprog t, rfl⟩

variable {s : State T L S} {t u : T}

/-- A mutex is taken only above the mutexes that the thread has. -/
theorem State.Fits.rank_lt (hs : s.Fits D) {m x : L} {th : Thread L S}
    (hn : Next (s.threads t) (.lock m) th) (hx : s.owner x = some t) : D.rank x < D.rank m := by
  obtain ⟨h', ⟨hrank, -⟩, -⟩ := (hs t).next hn
  exact hrank x (mem_held.mpr hx)

/-- Nobody waits for a mutex of its own. -/
theorem State.Fits.not_own (hs : s.Fits D) {m : L} {th : Thread L S}
    (hn : Next (s.threads t) (.lock m) th) : s.owner m ≠ some t :=
  fun h => Nat.lt_irrefl _ (hs.rank_lt hn h)

/-- A mutex is given up by its owner. -/
theorem State.Fits.owner_of_unlock (hs : s.Fits D) {m : L} {th : Thread L S}
    (hn : Next (s.threads t) (.unlock m) th) : s.owner m = some t := by
  obtain ⟨h', ⟨hmem, -⟩, -⟩ := (hs t).next hn
  exact mem_held.mp hmem

/-- An access is made under the mutexes it needs. -/
theorem State.Fits.allows_of_touch (hs : s.Fits D) {a : S} {th : Thread L S}
    (hn : Next (s.threads t) (.touch a) th) : D.allows a (s.held t) = true := by
  obtain ⟨h', ⟨hallow, -⟩, -⟩ := (hs t).next hn
  exact hallow

/-- At the head of its outermost loop a thread holds nothing. -/
theorem State.Fits.held_loop (hs : s.Fits D) {c : Cmd L S} (ht : s.threads t = [[.loop c]]) :
    s.held t = ∅ := by
  have hf := hs t
  rw [ht] at hf
  obtain ⟨entry, hk, rfl⟩ := hf
  exact hk.2

/-- The owner of a mutex is not finished. -/
theorem State.Fits.not_finished (hs : s.Fits D) {m : L} (hm : s.owner m = some t) :
    s.threads t ≠ [] := by
  intro hfin
  have hempty := hs t
  rw [hfin] at hempty
  have hmem : m ∈ s.held t := mem_held.mpr hm
  rw [show s.held t = ∅ from hempty] at hmem
  exact absurd hmem (Finset.notMem_empty m)

/-- **No deadlock.** Whoever is not finished can go on, or waits, in the end, for a thread that
can. -/
theorem State.Fits.exists_unblocked (hs : s.Fits D) (hne : s.threads t ≠ []) :
    ∃ u, Relation.ReflTransGen s.WaitsFor t u ∧ s.CanStep u := by
  -- the rank of the mutex that is waited for grows along the chain
  have hchain : ∀ n (m : L) (t u : T) (th : Thread L S),
      Next (s.threads t) (.lock m) th → s.owner m = some u →
      Finset.univ.sup D.rank - D.rank m = n →
      ∃ v, Relation.ReflTransGen s.WaitsFor t v ∧ s.CanStep v := by
    intro n
    induction n using Nat.strong_induction_on with
    | _ n ih =>
      intro m t u th hn hm hrank
      have hstep : s.WaitsFor t u := ⟨m, th, hn, hm⟩
      obtain hcan | ⟨v, m', th', hn', hm'⟩ := canStep_or_waitsFor (hs.not_finished hm)
      · exact ⟨u, .single hstep, hcan⟩
      have hlt : D.rank m < D.rank m' := hs.rank_lt hn' hm
      have hle : D.rank m' ≤ Finset.univ.sup D.rank := Finset.le_sup (Finset.mem_univ m')
      obtain ⟨w, hw, hcan⟩ := ih _ (by omega) m' u v th' hn' hm' rfl
      exact ⟨w, .head hstep hw, hcan⟩
  obtain hcan | ⟨u, m, th, hn, hm⟩ := canStep_or_waitsFor hne
  · exact ⟨t, .refl, hcan⟩
  · exact hchain _ m t u th hn hm rfl

end Runs

/-! ### Steps of one thread in a row -/

/-- The mutexes held behind the actions, if each mutex is taken only when it is not held and
given up only when it is. -/
def heldAfter : List (Action L S) → Finset L → Option (Finset L)
  | [], h => some h
  | .lock m :: as, h => if m ∈ h then none else heldAfter as (insert m h)
  | .unlock m :: as, h => if m ∈ h then heldAfter as (h.erase m) else none
  | _ :: as, h => heldAfter as h

variable [Fintype L]

/-- **A thread that nobody interrupts**: the others keep their mutexes and their places. -/
theorem reachable_performs {prog : T → Cmd L S} {s : State T L S}
    (hr : Reachable (threads prog) s) {t : T} {as : List (Action L S)} {th : Thread L S}
    (hp : Performs (s.threads t) as th) {h : Finset L} (hh : heldAfter as (s.held t) = some h)
    (hfree : ∀ m, .lock m ∈ as → ∀ u ≠ t, s.owner m ≠ some u) :
    ∃ s', Reachable (threads prog) s' ∧ s'.threads = update s.threads t th ∧
      ∀ u, s'.held u = if u = t then h else s.held u := by
  obtain ⟨th₀, hth₀⟩ : ∃ th₀, s.threads t = th₀ := ⟨_, rfl⟩
  rw [hth₀] at hp
  induction hp generalizing s with
  | done =>
    refine ⟨s, hr, by rw [← hth₀, update_eq_self], fun u => ?_⟩
    split
    · rename_i hu
      rw [hu]
      exact Option.some.inj hh
    · rfl
  | @next th th' th'' a as hn hp ih =>
    rw [← hth₀] at hn
    have hfree' : ∀ m, .lock m ∈ as → ∀ u ≠ t, s.owner m ≠ some u := fun m hm =>
      hfree m (List.mem_cons_of_mem _ hm)
    -- one step, then the rest from there
    have hrest : ∀ s₁ : State T L S, Step s (t, a) s₁ → s₁.threads = update s.threads t th' →
        (∀ u ≠ t, s₁.held u = s.held u) → heldAfter as (s₁.held t) = some h →
        ∃ s', Reachable (threads prog) s' ∧ s'.threads = update s.threads t th'' ∧
          ∀ u, s'.held u = if u = t then h else s.held u := by
      intro s₁ hstep hth hothers hheld
      have hfree₁ : ∀ m, .lock m ∈ as → ∀ u ≠ t, s₁.owner m ≠ some u := by
        intro m hm u hu howner
        have hmem : m ∈ s₁.held u := State.mem_held.mpr howner
        rw [hothers u hu] at hmem
        exact hfree' m hm u hu (State.mem_held.mp hmem)
      obtain ⟨s', hr', hth', hheld'⟩ := ih (hr.step hstep) hheld hfree₁ (by rw [hth, update_self])
      refine ⟨s', hr', by rw [hth', hth, update_idem], fun u => ?_⟩
      rw [hheld']
      split
      · rfl
      · rename_i hu
        exact hothers u hu
    cases a with
    | silent => exact hrest _ (.silent hn) rfl (fun _ _ => rfl) hh
    | touch a => exact hrest _ (.touch hn) rfl (fun _ _ => rfl) hh
    | lock m =>
      rw [heldAfter] at hh
      split at hh
      · exact absurd hh (by simp)
      rename_i hm
      have hnone : s.owner m = none := by
        cases howner : s.owner m with
        | none => rfl
        | some u =>
          by_cases hu : u = t
          · subst hu
            exact absurd (State.mem_held.mpr howner) hm
          · exact absurd howner (hfree m List.mem_cons_self u hu)
      refine hrest _ (.lock hn hnone) rfl (fun u hu => ?_) ?_
      · rw [State.held_lock hnone, if_neg hu]
      · rw [State.held_lock hnone, if_pos rfl]
        exact hh
    | unlock m =>
      rw [heldAfter] at hh
      split at hh
      · rename_i hm
        have howner : s.owner m = some t := State.mem_held.mp hm
        refine hrest _ (.unlock hn) rfl (fun u hu => ?_) ?_
        · rw [State.held_unlock howner, if_neg hu]
        · rw [State.held_unlock howner, if_pos rfl]
          exact hh
      · exact absurd hh (by simp)

end LockProgram
