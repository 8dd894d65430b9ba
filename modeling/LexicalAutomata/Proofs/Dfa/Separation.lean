/-
# `LexicalAutomata.Proofs.Dfa.Separation` — what the pairs that are left say about words of symbols

A word of symbols, among which an empty move counts as any other, separates two states if it can be
followed from one of them only, or leads to different tokens.  Where empty moves are read as symbols,
nothing has to be said about which of them an automaton has: the pairs of places that are left belong
to the states that no word separates (`alike_iff_inseparable`).
-/
import LexicalAutomata.Proofs.Dfa.Alike

namespace LexicalAutomata.Dfa

open Automaton

variable {tags : Tags} {d : Dfa} {s t u : State} {x : Symbol} {w : List Symbol}

/-- Where a word of symbols leads from a state. -/
def traceFrom (d : Dfa) (s : State) (w : List Symbol) : Option State := w.foldlM d.target? s

/-- The word can be followed from one of the states only, or it leads to different tokens. -/
def Separates (d : Dfa) (w : List Symbol) (s t : State) : Prop :=
  (d.traceFrom s w).map State.token ≠ (d.traceFrom t w).map State.token

/-- Every word leads nowhere from both states, or to one token. -/
def Inseparable (d : Dfa) (s t : State) : Prop :=
  ∀ w, (d.traceFrom s w).map State.token = (d.traceFrom t w).map State.token

theorem inseparable_iff : d.Inseparable s t ↔ ¬ ∃ w, d.Separates w s t := by
  simp only [Inseparable, Separates, ne_eq, not_exists, not_not]

theorem token_traceFrom_cons : (d.traceFrom s (x :: w)).map State.token =
    (d.target? s x).bind fun u => (d.traceFrom u w).map State.token := by
  rw [traceFrom, List.foldlM_cons]
  exact Option.map_bind

namespace Inseparable

theorem symm (h : d.Inseparable s t) : d.Inseparable t s := fun w => (h w).symm

theorem trans (h : d.Inseparable s t) (h' : d.Inseparable t u) : d.Inseparable s u :=
  fun w => (h w).trans (h' w)

theorem token (h : d.Inseparable s t) : s.token = t.token := Option.some_inj.mp (h [])

theorem target? (h : d.Inseparable s t) (x : Symbol) :
    Option.Rel d.Inseparable (d.target? s x) (d.target? t x) := by
  refine rel_of_bind_eq [] (fun _ => Option.some_ne_none _) (fun _ => Option.some_ne_none _) fun w => ?_
  rw [← token_traceFrom_cons, ← token_traceFrom_cons]
  exact h (x :: w)

end Inseparable

/-- A relation that respects tokens and symbols relates only states that no word separates. -/
theorem inseparable_of_bisimulation {R : State → State → Prop}
    (token : ∀ s t, R s t → s.token = t.token)
    (step : ∀ s t, R s t → ∀ x, Option.Rel R (d.target? s x) (d.target? t x)) (h : R s t) :
    d.Inseparable s t := by
  intro w
  induction w generalizing s t with
  | nil => exact congrArg some (token s t h)
  | cons x w ih =>
      rw [token_traceFrom_cons, token_traceFrom_cons]
      exact bind_eq_of_rel (step s t h x) ih

/-- Pairs of places that are left belong to states that no word separates, and the other way round. -/
theorem alike_iff_inseparable (h : d.WellFormed tags) (hd : d.Deterministic) (hs : s ∈ d.states)
    (ht : t ∈ d.states) : AlikeIn d d.leftPairs s t ↔ d.Inseparable s t := by
  constructor
  · intro ha
    refine inseparable_of_bisimulation (R := fun s t => s ∈ d.states ∧ t ∈ d.states ∧
      AlikeIn d d.leftPairs s t) ?_ ?_ ⟨hs, ht, ha⟩
    · intro s t h'
      obtain ⟨hs, ht, ha⟩ := h'
      exact (ha.respects h hd hs ht).1
    · intro s t h' x
      obtain ⟨hs, ht, ha⟩ := h'
      exact rel_imp ((ha.respects h hd hs ht).2 x) fun u v hu hv hr =>
        ⟨target?_mem h hu, target?_mem h hv, hr⟩
  · exact alikeIn_of_bisimulation h hd Inseparable.symm Inseparable.token Inseparable.target? hs ht

theorem alike_iff_inseparable_at (h : d.WellFormed tags) (hd : d.Deterministic) {i j : Nat}
    (hi : d.ordered[i]? = some s) (hj : d.ordered[j]? = some t) :
    alike d.leftPairs i j ↔ d.Inseparable s t := by
  obtain ⟨hs, rfl⟩ := (getElem?_ordered_iff h).mp hi
  obtain ⟨ht, rfl⟩ := (getElem?_ordered_iff h).mp hj
  exact alike_iff_inseparable h hd hs ht

/-- Being left is an equivalence of places, whether or not there are empty moves. -/
theorem alike_trans (h : d.WellFormed tags) (hd : d.Deterministic) {i j k : Nat}
    (hi : i < d.ordered.length) (hj : j < d.ordered.length) (hk : k < d.ordered.length)
    (hij : alike d.leftPairs i j) (hjk : alike d.leftPairs j k) : alike d.leftPairs i k := by
  have ei := List.getElem?_eq_getElem hi
  have ej := List.getElem?_eq_getElem hj
  have ek := List.getElem?_eq_getElem hk
  exact (alike_iff_inseparable_at h hd ei ek).mpr
    (((alike_iff_inseparable_at h hd ei ej).mp hij).trans
      ((alike_iff_inseparable_at h hd ej ek).mp hjk))

end LexicalAutomata.Dfa
