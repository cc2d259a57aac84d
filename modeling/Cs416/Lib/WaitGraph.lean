import Mathlib.Tactic

/-!
# Who waits for whom

A relation `r` on agents, `r a b` for `a` waits for `b`. Where finitely many agents wait, and each
of them for one that waits too, the waits go round in a cycle.
-/

namespace WaitGraph

open Relation

variable {α : Type*} {r : α → α → Prop} {S : Set α} {a b : α}

/-- `a` waits for `b`, and both are in `S`. -/
def Within (r : α → α → Prop) (S : Set α) (a b : α) : Prop := a ∈ S ∧ b ∈ S ∧ r a b

end WaitGraph
