/-
# `LexicalAutomata.Graph.Validity` — the checks that follow every stage

Automata and tables are checked alike, as graphs of numbered vertices with arcs that read symbols.
The checks of a deterministic automaton include those of a nondeterministic one, and these include
those of one with empty moves; the first that fails is reported.
-/
import LexicalAutomata.Distinct
import LexicalAutomata.Error
import LexicalAutomata.Graph.Search

namespace LexicalAutomata

/-- A vertex as the checks see it. -/
structure Graph.Vertex where
  /-- The number, by which it is told apart. -/
  number : Nat
  /-- Whether it accepts. -/
  accepting : Bool
  /-- How an error names it. -/
  label : String

/-- A graph as the checks see it. -/
structure Graph where
  /-- Where every path begins. -/
  start : Nat
  /-- The carried vertices, in the order they are examined. -/
  vertices : List Graph.Vertex
  /-- The arcs, those of one vertex in the order they are examined. -/
  arcs : List (Nat × Symbol × Nat)

namespace Graph

/-- The symbols on which arcs leave a vertex. -/
def symbolsFrom (g : Graph) (v : Vertex) : List Symbol :=
  (g.arcs.filter fun e => e.1 == v.number).map fun e => e.2.1

/-- The numbers at the end of some path from the start. -/
def reached (g : Graph) : List Nat :=
  visit id (g.arcs.map fun e => (e.1, e.2.2)) .stack [g.start] []

/-- Some vertex accepts. -/
def checkFinal (g : Graph) : Except Error Unit :=
  if g.vertices.any Vertex.accepting then .ok () else .error .noFinalState

/-- Every vertex can be reached from the start. -/
def checkConnected (g : Graph) : Except Error Unit :=
  let reached := g.reached
  match (g.vertices.filter fun v => !reached.contains v.number).length with
  | 0 => .ok ()
  | n + 1 => .error (.disconnected (n + 1))

/-- No vertex has an empty move. -/
def checkEpsilonFree (g : Graph) : Except Error Unit :=
  match g.vertices.find? fun v => (g.symbolsFrom v).contains .epsilon with
  | none => .ok ()
  | some v => .error (.unexpectedEpsilon v.label)

/-- The first character on which two arcs leave the vertex. -/
def repeatedChar? (g : Graph) (v : Vertex) : Option Char :=
  firstRepeat [] ((g.symbolsFrom v).filterMap Symbol.toChar?)

/-- No vertex has two arcs on one character. -/
def checkDeterministic (g : Graph) : Except Error Unit :=
  g.vertices.forM fun v =>
    match g.repeatedChar? v with
    | none => .ok ()
    | some c => .error (.duplicateTransition v.label c)

/-- What holds of an automaton with empty moves. -/
def checkEpsilonNfa (g : Graph) : Except Error Unit := do
  g.checkFinal
  g.checkConnected

/-- What holds of an automaton without empty moves. -/
def checkNfa (g : Graph) : Except Error Unit := do
  g.checkEpsilonNfa
  g.checkEpsilonFree

/-- What holds of a deterministic automaton. -/
def checkDfa (g : Graph) : Except Error Unit := do
  g.checkNfa
  g.checkDeterministic

end Graph

end LexicalAutomata
