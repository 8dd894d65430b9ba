/-
# `LexicalAutomata.Automaton.Basic` — automata, and how they are built and run

One representation serves every stage: a start state, the carried states in ascending order, and the
arcs in ascending order.  The kind of an automaton says how arcs are added to it: a nondeterministic
one collects arcs, with or without empty moves, and a deterministic one has at most one arc for each
state and symbol, the one set last.

Adding an arc carries both its ends.  A state that is carried already, or already has arcs, keeps the
occurrence that came first.
-/
import LexicalAutomata.Automaton.State
import LexicalAutomata.Graph.Search
import LexicalAutomata.Ordered

namespace LexicalAutomata

/-- How arcs are added to an automaton. -/
inductive Automaton.Kind where
  | nondeterministic
  | deterministic

/-- A finite automaton. -/
structure Automaton (k : Automaton.Kind) where
  /-- Where every run begins. -/
  start : State
  /-- The carried states, ascending. -/
  states : List State
  /-- The arcs, ascending. -/
  arcs : List Arc

/-- A nondeterministic automaton, which may have empty moves. -/
abbrev Nfa := Automaton .nondeterministic

/-- A deterministic automaton. -/
abbrev Dfa := Automaton .deterministic

namespace Automaton

variable {k : Automaton.Kind}

/-- The automaton that carries only its start. -/
def new (start : State) : Automaton k := ⟨start, [start], []⟩

/-- Whether a state of this number is carried. -/
def carries (a : Automaton k) (s : State) : Bool := s.isIn a.states

/-- Carry a state. -/
def addState (a : Automaton k) (s : State) : Automaton k :=
  { a with states := Ordered.insert State.order s a.states }

/-- The arcs that leave a state. -/
def arcsFrom (a : Automaton k) (s : State) : List Arc :=
  a.arcs.filter fun e => e.source.id == s.id

/-- The targets of the arcs that leave a state on a symbol. -/
def targets (a : Automaton k) (s : State) (x : Symbol) : List State :=
  ((a.arcsFrom s).filter fun e => e.symbol == x).map Arc.target

/-- The symbols on which arcs leave a state, each with the targets. -/
def neighbors (a : Automaton k) (s : State) : List (Symbol × List State) :=
  ((a.arcsFrom s).map Arc.symbol).eraseDups.map fun x => (x, a.targets s x)

/-- The accepting states among those carried. -/
def acceptingStates (a : Automaton k) : List State := a.states.filter State.accepting

/-- The characters on arcs, ascending. -/
def alphabet (a : Automaton k) : List Char :=
  Ordered.ofList compare (a.arcs.filterMap fun e => e.symbol.toChar?)

/-- The occurrence of a state as the source of arcs: the first one, if it has arcs already. -/
def sourceOf (a : Automaton k) (s : State) : State :=
  ((a.arcs.find? fun e => e.source.id == s.id).map Arc.source).getD s

/-- Carry both ends of an arc. -/
def carryEnds (a : Automaton k) (s t : State) : List State :=
  Ordered.insert State.order t (Ordered.insert State.order s a.states)

/-! ## Reachable states -/

/-- The arcs as links between states. -/
def links (a : Automaton k) : List (State × State) := a.arcs.map fun e => (e.source, e.target)

/-- The states at the end of some path from the start. -/
def reachable (a : Automaton k) : List State :=
  Ordered.ofList State.order (Graph.visit State.id a.links .stack [a.start] [])

/-- Carry only what can be reached from the start, and keep only the arcs that leave it. -/
def prune (a : Automaton k) : Automaton k :=
  let reachable := a.reachable
  { a with states := reachable, arcs := a.arcs.filter fun e => e.source.isIn reachable }

/-- The states breadth first from the start, along arcs in ascending order; then the carried states
that cannot be reached. -/
def ordered (a : Automaton k) : List State :=
  let found := Graph.visit State.id a.links .queue [a.start] []
  found ++ a.states.filter fun s => !s.isIn found

end Automaton

/-! ## Nondeterministic automata -/

namespace Nfa

/-- Whether the arc is there. -/
def hasArc (n : Nfa) (s : State) (x : Symbol) (t : State) : Bool := t.isIn (n.targets s x)

/-- Add an arc and carry its ends; nothing changes for an arc that is there. -/
def addArc (n : Nfa) (s : State) (x : Symbol) (t : State) : Nfa :=
  { start := n.start
    states := n.carryEnds s t
    arcs := Ordered.insert Arc.order ⟨n.sourceOf s, x, t⟩ n.arcs }

end Nfa

/-! ## Deterministic automata -/

namespace Dfa

/-- Where the arc from a state on a symbol leads. -/
def target? (d : Dfa) (s : State) (x : Symbol) : Option State := (d.targets s x).head?

/-- Let the arc from a state on a symbol lead to `t`, wherever it led before, and carry its ends. -/
def setArc (d : Dfa) (s : State) (x : Symbol) (t : State) : Dfa :=
  { start := d.start
    states := d.carryEnds s t
    arcs := Ordered.insert Arc.order ⟨d.sourceOf s, x, t⟩
      (d.arcs.filter fun e => !(e.source.id == s.id && e.symbol == x)) }

/-- The state after reading one character. -/
def step (d : Dfa) (s : State) (c : Char) : Option State := d.target? s (.char c)

/-- The state after reading a word from a given state. -/
def runFrom (d : Dfa) (s : State) (w : List Char) : Option State := w.foldlM d.step s

/-- The state after reading a word from the start. -/
def run (d : Dfa) (w : List Char) : Option State := d.runFrom d.start w

/-- The tag after reading a word from the start, if that accepts. -/
def accepts (d : Dfa) (w : List Char) : Option Accept := (d.run w).bind State.accept

end Dfa

end LexicalAutomata
