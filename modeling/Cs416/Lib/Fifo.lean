import Cs416.Lib.Lts

/-!
# Queues that serve in turn

A state of a labelled transition system shows a queue: elements enter at the tail and leave at the
head. `Fifo sys queue served` says so of every step; `served` is how many a step of the label
takes from the queue, if so many are there. Then over a run nobody is overtaken: whoever is at
place `k` is at place `k - n` once `n` have been served (`Fifo.turn`).
-/

namespace Lts

variable {State Label A : Type*}

/-- Elements leave at the head and enter at the tail. -/
def Fifo (sys : System State Label) (queue : State → List A) (served : Label → ℕ) : Prop :=
  ∀ s l s', sys.step s l s' → ∃ taken added, queue s ++ added = taken ++ queue s' ∧
    (served l ≤ (queue s).length → taken.length = served l)

/-- How many a run serves. -/
def servings (served : Label → ℕ) (ls : List Label) : ℕ := (ls.map served).sum

variable {sys : System State Label} {queue : State → List A} {served : Label → ℕ}

@[simp] theorem servings_nil : servings served [] = 0 := rfl

@[simp] theorem servings_concat (ls : List Label) (l : Label) :
    servings served (ls ++ [l]) = servings served ls + served l := by
  simp [servings]

/-- One step moves the element up by what is served. -/
theorem Fifo.step (h : Fifo sys queue served) {s s' : State} {l : Label} (hs : sys.step s l s')
    {k : ℕ} {x : A} (hx : (queue s)[k]? = some x) (hk : served l ≤ k) :
    (queue s')[k - served l]? = some x := by
  obtain ⟨taken, added, heq, hlen⟩ := h s l s' hs
  obtain ⟨hlt, -⟩ := List.getElem?_eq_some_iff.mp hx
  have htaken := hlen (hk.trans hlt.le)
  have hall : (taken ++ queue s')[k]? = some x := by
    rw [← heq, List.getElem?_append_left hlt]
    exact hx
  rwa [List.getElem?_append_right (htaken.trans_le hk), htaken] at hall

/-- **Nobody is overtaken.** -/
theorem Fifo.turn (h : Fifo sys queue served) {s s' : State} {ls : List Label}
    (hr : Run (sys.startAt s) ls s') {k : ℕ} {x : A} (hx : (queue s)[k]? = some x)
    (hk : servings served ls ≤ k) : (queue s')[k - servings served ls]? = some x := by
  induction hr with
  | start hs =>
    obtain rfl := hs
    exact hx
  | @step ls s₁ s₂ l _ hs ih =>
    rw [servings_concat] at hk ⊢
    rw [Nat.sub_add_eq]
    exact h.step hs (ih (by omega)) (by omega)

end Lts
