import Mathlib.Data.List.Basic
import Mathlib.Logic.Function.Basic

/-!
# A device and the writes that reach it

A log is the list of writes that an operation makes, oldest first, and `play` performs it on a
device. When the operation is cut short, the device holds the effect of a first part of the log.
`Always P` says that `P` holds then, wherever the cut is, and `Before P` that it holds unless the
log was played to its end. Both are proved along the log, part by part.
-/

open Function

namespace WriteLog

variable {A B : Type*} [DecidableEq A]

/-- The device after the writes of the log. -/
def play (d : A → B) : List (A × B) → A → B
  | [] => d
  | w :: ws => play (update d w.1 w.2) ws

@[simp] theorem play_nil (d : A → B) : play d [] = d := rfl

@[simp] theorem play_cons (d : A → B) (w : A × B) (ws : List (A × B)) :
    play d (w :: ws) = play (update d w.1 w.2) ws := rfl

@[simp] theorem play_append (d : A → B) (ws₁ ws₂ : List (A × B)) :
    play d (ws₁ ++ ws₂) = play (play d ws₁) ws₂ := by
  induction ws₁ generalizing d with
  | nil => rfl
  | cons w ws ih => exact ih _

/-- `P` holds wherever the log is cut. -/
def Always (P : (A → B) → Prop) (d : A → B) (ws : List (A × B)) : Prop :=
  ∀ k ≤ ws.length, P (play d (ws.take k))

/-- `P` holds wherever the log is cut in front of its last write. -/
def Before (P : (A → B) → Prop) (d : A → B) (ws : List (A × B)) : Prop :=
  ∀ k < ws.length, P (play d (ws.take k))

variable {P Q : (A → B) → Prop} {d : A → B} {w : A × B} {ws ws₁ ws₂ : List (A × B)}

theorem Always.before (h : Always P d ws) : Before P d ws := fun k hk => h k (Nat.le_of_lt hk)

theorem Always.start (h : Always P d ws) : P d := h 0 (Nat.zero_le _)

theorem Always.finish (h : Always P d ws) : P (play d ws) := by
  have hall := h ws.length (Nat.le_refl _)
  rwa [List.take_length] at hall

theorem Always.mono (hPQ : ∀ d, P d → Q d) (h : Always P d ws) : Always Q d ws :=
  fun k hk => hPQ _ (h k hk)

theorem always_nil : Always P d [] ↔ P d := by
  constructor
  · exact Always.start
  · intro h k _
    rw [List.take_nil]
    exact h

theorem always_cons : Always P d (w :: ws) ↔ P d ∧ Always P (update d w.1 w.2) ws := by
  constructor
  · intro h
    exact ⟨h.start, fun k hk => h (k + 1) (Nat.succ_le_succ hk)⟩
  · rintro ⟨h0, h⟩ k hk
    cases k with
    | zero => exact h0
    | succ k => exact h k (Nat.le_of_succ_le_succ hk)

theorem always_append : Always P d (ws₁ ++ ws₂) ↔ Always P d ws₁ ∧ Always P (play d ws₁) ws₂ := by
  induction ws₁ generalizing d with
  | nil =>
    rw [List.nil_append, play_nil, always_nil]
    exact ⟨fun h => ⟨h.start, h⟩, And.right⟩
  | cons w ws ih =>
    rw [List.cons_append, always_cons, always_cons, ih, play_cons, and_assoc]

/-- A log whose last write is `w` is cut before that one. -/
theorem before_concat : Before P d (ws ++ [w]) ↔ Always P d ws := by
  constructor
  · intro h k hk
    have hlt : k < (ws ++ [w]).length := by
      rw [List.length_append]
      exact Nat.lt_succ_of_le hk
    have hcut := h k hlt
    rwa [List.take_append_of_le_length hk] at hcut
  · intro h k hk
    rw [List.length_append] at hk
    have hle : k ≤ ws.length := Nat.le_of_lt_succ hk
    rw [List.take_append_of_le_length hle]
    exact h k hle

end WriteLog
