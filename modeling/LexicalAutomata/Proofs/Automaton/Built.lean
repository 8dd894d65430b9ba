/-
# `LexicalAutomata.Proofs.Automaton.Built` — what the operations build

Automata built from the states of one supply are well-formed, and deterministic where arcs are set and
not added.  Something is left even if their states come from different supplies, so that one number may
occur with different tags (`Made`): of deterministic ones, the arcs ascend, and no two of them leave one
state on one symbol.
-/
import LexicalAutomata.Proofs.Automaton.WellFormed

namespace LexicalAutomata

open Automaton

theorem Automaton.sourceOf_id {k : Kind} (a : Automaton k) (s : State) : (a.sourceOf s).id = s.id := by
  unfold sourceOf
  cases hf : a.arcs.find? fun e => e.source.id == s.id with
  | none => rfl
  | some e =>
      have := List.find?_some hf
      rwa [beq_iff_eq] at this

/-- Nondeterministic automata that the operations give, whatever states they are given. -/
inductive Nfa.Made : Nfa → Prop
  | new (s : State) : Made (Automaton.new s)
  | addState {n : Nfa} (s : State) : Made n → Made (n.addState s)
  | addArc {n : Nfa} (s : State) (x : Symbol) (t : State) : Made n → Made (n.addArc s x t)
  | prune {n : Nfa} : Made n → Made n.prune

theorem Nfa.Built.wellFormed {tags : Tags} {n : Nfa} (h : n.Built tags) : n.WellFormed tags := by
  induction h with
  | new i => exact .new rfl
  | addState i _ ih => exact ih.addState rfl
  | addArc i x j _ ih => exact ih.addArc rfl rfl
  | prune _ ih => exact ih.prune

namespace Dfa

variable {tags : Tags} {d : Dfa}

theorem Built.wellFormed (h : d.Built tags) : d.WellFormed tags := by
  induction h with
  | new i => exact .new rfl
  | addState i _ ih => exact ih.addState rfl
  | setArc i x j _ ih => exact ih.setArc rfl rfl
  | prune _ ih => exact ih.prune

/-- Deterministic automata that the operations give, whatever states they are given. -/
inductive Made : Dfa → Prop
  | new (s : State) : Made (Automaton.new s)
  | addState {d : Dfa} (s : State) : Made d → Made (d.addState s)
  | setArc {d : Dfa} (s : State) (x : Symbol) (t : State) : Made d → Made (d.setArc s x t)
  | prune {d : Dfa} : Made d → Made d.prune

theorem Built.made (h : d.Built tags) : d.Made := by
  induction h with
  | new i => exact .new _
  | addState i _ ih => exact .addState _ ih
  | setArc i x j _ ih => exact .setArc _ x _ ih
  | prune _ ih => exact .prune ih

theorem Made.addStates (states : List State) (h : d.Made) :
    Made (states.foldl Automaton.addState d) := by
  induction states generalizing d with
  | nil => exact h
  | cons s states ih => exact ih (.addState s h)

theorem Made.arcs_ascending (h : d.Made) : Ordered.Ascending Arc.order d.arcs := by
  induction h with
  | new s => exact .nil
  | addState s _ ih => exact ih
  | setArc s x t _ ih => exact Ordered.ascending_insert _ (ih.filter _)
  | prune _ ih => exact ih.filter _

theorem Made.deterministic (h : d.Made) : d.Deterministic := by
  induction h with
  | new s =>
      intro e he
      cases he
  | addState s _ ih => exact ih
  | @setArc d s x t _ ih =>
      intro e he f hf hsource hsymbol
      rcases Ordered.mem_of_mem_insert he with rfl | he
      · rcases Ordered.mem_of_mem_insert hf with rfl | hf
        · rfl
        · exact absurd ⟨hsource.symm.trans (sourceOf_id d s), hsymbol.symm⟩ (mem_arcs_other.mp hf).2
      · rcases Ordered.mem_of_mem_insert hf with rfl | hf
        · exact absurd ⟨hsource.trans (sourceOf_id d s), hsymbol⟩ (mem_arcs_other.mp he).2
        · exact ih e (mem_arcs_other.mp he).1 f (mem_arcs_other.mp hf).1 hsource hsymbol
  | prune _ ih => exact ih.prune

end Dfa

end LexicalAutomata
