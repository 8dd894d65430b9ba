/-
# `LexicalAutomata.Automaton.Validity` — automata as the checks see them

A carried state is a vertex, named in errors as it is displayed; whether it accepts is told by the
occurrence that is carried.
-/
import LexicalAutomata.Automaton.Basic
import LexicalAutomata.Graph.Validity

namespace LexicalAutomata

/-- An automaton as the checks see it. -/
def Automaton.graph {k : Automaton.Kind} (a : Automaton k) : Graph where
  start := a.start.id
  vertices := a.states.map fun s => ⟨s.id, s.accepting, s.label⟩
  arcs := a.arcs.map fun e => (e.source.id, e.symbol, e.target.id)

end LexicalAutomata
