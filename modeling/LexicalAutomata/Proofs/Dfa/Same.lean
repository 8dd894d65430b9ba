/-
# `LexicalAutomata.Proofs.Dfa.Same` — states that nothing tells apart

What can be seen of a state are the words that can be read from it, and the token each of them leads
to.  Two states are the `Same` if that agrees.  Whatever relation respects tokens and single characters
relates only such states (`same_of_bisimulation`); this is the principle by which automata are
compared, also automata that do not share a state.
-/
import LexicalAutomata.Proofs.Automaton.Run

namespace LexicalAutomata.Dfa

open Automaton

variable {tags : Tags} {c d d' : Dfa} {s t u : State} {x : Char}

/-- What can be seen after a word: nothing, or whether a token is complete there, and which. -/
def seenAfter (d : Dfa) (s : State) (w : List Char) : Option (Option String) :=
  (d.runFrom s w).map State.token

/-- Nothing tells the state `s` of `d` and the state `t` of `d'` apart. -/
def Same (d : Dfa) (s : State) (d' : Dfa) (t : State) : Prop :=
  ∀ w, d.seenAfter s w = d'.seenAfter t w

theorem seenAfter_cons {w : List Char} :
    d.seenAfter s (x :: w) = (d.step s x).bind fun t => d.seenAfter t w := by
  rw [seenAfter, runFrom_cons]
  exact Option.map_bind

section Observed
variable {α β γ : Type} {a b : Option α} {f g : α → β → Option γ}

/-- If the same is seen behind two partial steps, and something is always seen, then both steps are
possible or none is, and the same is seen from where they lead. -/
theorem rel_of_bind_eq (v : β) (hf : ∀ x, f x v ≠ none) (hg : ∀ x, g x v ≠ none)
    (h : ∀ w, (a.bind fun x => f x w) = b.bind fun y => g y w) :
    Option.Rel (fun x y => ∀ w, f x w = g y w) a b := by
  cases a with
  | none =>
      cases b with
      | none => exact .none
      | some y => exact absurd (h v).symm (hg y)
  | some x =>
      cases b with
      | none => exact absurd (h v) (hf x)
      | some y => exact .some h

theorem bind_eq_of_rel {R : α → α → Prop} (h : Option.Rel R a b) {w : β}
    (hR : ∀ {x y}, R x y → f x w = g y w) : (a.bind fun x => f x w) = b.bind fun y => g y w := by
  cases h with
  | none => rfl
  | some h => exact hR h

end Observed

namespace Same

theorem symm (h : Same d s d' t) : Same d' t d s := fun w => (h w).symm

theorem trans (h : Same d s d' t) (h' : Same d' t c u) : Same d s c u :=
  fun w => (h w).trans (h' w)

theorem token (h : Same d s d' t) : s.token = t.token := Option.some_inj.mp (h [])

theorem step (h : Same d s d' t) (x : Char) :
    Option.Rel (fun u v => Same d u d' v) (d.step s x) (d'.step t x) := by
  refine rel_of_bind_eq [] (fun _ => Option.some_ne_none _) (fun _ => Option.some_ne_none _) fun w => ?_
  rw [← seenAfter_cons, ← seenAfter_cons]
  exact h (x :: w)

theorem run (h : Same d s d' t) (w : List Char) :
    Option.Rel (fun u v => Same d u d' v) (d.runFrom s w) (d'.runFrom t w) := by
  induction w generalizing s t with
  | nil => exact .some h
  | cons x w ih =>
      rw [runFrom_cons, runFrom_cons]
      have hx := h.step x
      revert hx
      cases d.step s x with
      | none =>
          cases d'.step t x with
          | none => exact fun _ => .none
          | some v => intro hx; cases hx
      | some u =>
          cases d'.step t x with
          | none => intro hx; cases hx
          | some v =>
              intro hx
              cases hx with
              | some hx => exact ih hx

end Same

/-- A relation that respects tokens and single characters relates only states that are the same. -/
theorem same_of_bisimulation {R : State → State → Prop}
    (token : ∀ s t, R s t → s.token = t.token)
    (step : ∀ s t, R s t → ∀ x, Option.Rel R (d.step s x) (d'.step t x)) (h : R s t) :
    Same d s d' t := by
  intro w
  induction w generalizing s t with
  | nil => exact congrArg some (token s t h)
  | cons x w ih =>
      rw [seenAfter_cons, seenAfter_cons]
      exact bind_eq_of_rel (step s t h x) ih

end LexicalAutomata.Dfa
