/-
# `LexicalAutomata.Automaton.Built` — automata made of the states of one supply

A supply hands out each number once, with a tag or none: so there is one state for each number, and
`State.ofTags` gives it.  An automaton is built from such states by the operations on automata in any
order.  What every such automaton satisfies is `WellFormed`: the lists ascend, the ends of every arc
are carried, and wherever a number occurs it has the same tag.
-/
import LexicalAutomata.Automaton.Basic

namespace LexicalAutomata

/-- The tags that a supply has given to numbers. -/
abbrev Tags := Nat → Option Accept

/-- The state of a number. -/
def State.ofTags (tags : Tags) (i : Nat) : State := ⟨i, tags i⟩

/-- Nondeterministic automata built from the states of one supply. -/
inductive Nfa.Built (tags : Tags) : Nfa → Prop
  | new (i : Nat) : Built tags (Automaton.new (.ofTags tags i))
  | addState {n : Nfa} (i : Nat) : Built tags n → Built tags (n.addState (.ofTags tags i))
  | addArc {n : Nfa} (i : Nat) (x : Symbol) (j : Nat) :
      Built tags n → Built tags (n.addArc (.ofTags tags i) x (.ofTags tags j))
  | prune {n : Nfa} : Built tags n → Built tags n.prune

/-- Deterministic automata built from the states of one supply. -/
inductive Dfa.Built (tags : Tags) : Dfa → Prop
  | new (i : Nat) : Built tags (Automaton.new (.ofTags tags i))
  | addState {d : Dfa} (i : Nat) : Built tags d → Built tags (d.addState (.ofTags tags i))
  | setArc {d : Dfa} (i : Nat) (x : Symbol) (j : Nat) :
      Built tags d → Built tags (d.setArc (.ofTags tags i) x (.ofTags tags j))
  | prune {d : Dfa} : Built tags d → Built tags d.prune

/-- What holds of every automaton built from the states of one supply. -/
structure Automaton.WellFormed {k : Automaton.Kind} (tags : Tags) (a : Automaton k) : Prop where
  /-- The carried states ascend. -/
  states_ascending : Ordered.Ascending State.order a.states
  /-- The arcs ascend. -/
  arcs_ascending : Ordered.Ascending Arc.order a.arcs
  /-- The start is carried. -/
  start_mem : a.start ∈ a.states
  /-- Sources are carried. -/
  source_mem : ∀ e ∈ a.arcs, e.source ∈ a.states
  /-- Targets are carried. -/
  target_mem : ∀ e ∈ a.arcs, e.target ∈ a.states
  /-- Carried states have the tags of their numbers. -/
  tagged : ∀ s ∈ a.states, s = .ofTags tags s.id

end LexicalAutomata
