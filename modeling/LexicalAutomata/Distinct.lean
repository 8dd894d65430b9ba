/-
# `LexicalAutomata.Distinct` — the first repetition in a list

Names of productions and characters leaving a state must not repeat; what is reported is the first
member that occurred before.  Main statement: there is none exactly when the list has no repetition.
-/

namespace LexicalAutomata

variable {α : Type} [DecidableEq α]

/-- The first member that is in `seen` or occurred earlier in the list. -/
def firstRepeat (seen : List α) : List α → Option α
  | [] => none
  | x :: xs => if x ∈ seen then some x else firstRepeat (x :: seen) xs

theorem firstRepeat_eq_none_iff {seen xs : List α} :
    firstRepeat seen xs = none ↔ (∀ x ∈ xs, x ∉ seen) ∧ xs.Nodup := by
  induction xs generalizing seen with
  | nil => simp [firstRepeat]
  | cons x xs ih =>
      rw [firstRepeat]
      split <;> grind

theorem nodup_of_firstRepeat {xs : List α} (h : firstRepeat [] xs = none) : xs.Nodup :=
  (firstRepeat_eq_none_iff.mp h).2

end LexicalAutomata
