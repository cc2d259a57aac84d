import Mathlib.Tactic

/-!
# Trees of names

A tree says what each path is: nothing, or a node. A path is a list of components, outermost
first. The structure carries what makes the assignment a tree: the root is there and is an
inner node, and so is the parent of everything else that is there. `insert` adds a leaf under
an inner node; it is the only way the trees of this development grow.
-/

/-- A tree with nodes of kind `κ`, of which those in `inner` may have children. -/
structure NameTree (α κ : Type*) (inner : κ → Prop) where
  at_ : List α → Option κ
  root : ∃ k, at_ [] = some k ∧ inner k
  parent : ∀ p c k, at_ (p ++ [c]) = some k → ∃ k', at_ p = some k' ∧ inner k'

namespace NameTree

variable {α κ : Type*} {inner : κ → Prop}

@[ext] theorem ext {t t' : NameTree α κ inner} (h : ∀ p, t.at_ p = t'.at_ p) : t = t' := by
  cases t
  cases t'
  congr
  exact funext h

/-- Nothing lies below a path that is not there. -/
theorem at_append_eq_none (t : NameTree α κ inner) {p : List α} (h : t.at_ p = none) (q : List α) :
    t.at_ (p ++ q) = none := by
  induction q using List.reverseRecOn with
  | nil => rwa [List.append_nil]
  | append_singleton q c ih =>
    rw [← List.append_assoc]
    cases hk : t.at_ (p ++ q ++ [c]) with
    | none => rfl
    | some k =>
      obtain ⟨k', hk', -⟩ := t.parent _ _ _ hk
      rw [ih] at hk'
      exact absurd hk' (by simp)

variable [DecidableEq α]

/-- Add the path `p ++ [c]`, under an inner node that has no such child. -/
def insert (t : NameTree α κ inner) (p : List α) (c : α) (k : κ)
    (hp : ∃ k', t.at_ p = some k' ∧ inner k') (hnew : t.at_ (p ++ [c]) = none) :
    NameTree α κ inner where
  at_ := Function.update t.at_ (p ++ [c]) (some k)
  root := by
    rw [Function.update_of_ne (by simp)]
    exact t.root
  parent q d k' h := by
    have hne : q ≠ p ++ [c] := by
      rintro rfl
      rw [Function.update_of_ne (by simp), t.at_append_eq_none hnew] at h
      exact absurd h (by simp)
    rw [Function.update_of_ne hne]
    by_cases hq : q ++ [d] = p ++ [c]
    · obtain ⟨rfl, -⟩ := List.append_inj' hq rfl
      exact hp
    · rw [Function.update_of_ne hq] at h
      exact t.parent q d k' h

theorem at_insert (t : NameTree α κ inner) {p : List α} {c : α} {k : κ}
    (hp : ∃ k', t.at_ p = some k' ∧ inner k') (hnew : t.at_ (p ++ [c]) = none) (q : List α) :
    (t.insert p c k hp hnew).at_ q = if q = p ++ [c] then some k else t.at_ q :=
  Function.update_apply _ _ _ _

end NameTree
