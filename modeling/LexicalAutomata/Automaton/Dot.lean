/-
# `LexicalAutomata.Automaton.Dot` — an automaton as the text of a drawing

The drawing numbers the states as `ordered` lists them.  A line for each arc comes first, by the
numbers of the source and of the symbol's rank and of the target; then the start, and the accepting
states with their tokens.
-/
import LexicalAutomata.Automaton.Basic

namespace LexicalAutomata.Automaton

variable {k : Automaton.Kind}

/-- An automaton drawn by numbers alone. -/
structure Drawing where
  /-- The arcs, ascending. -/
  arcs : List (Nat × Symbol × Nat)
  /-- The start. -/
  start : Nat
  /-- The accepting states with their tokens, ascending. -/
  finals : List (Nat × String)

/-- Numbered arcs compare by source, symbol and target. -/
def Drawing.arcOrder : Nat × Symbol × Nat → Nat × Symbol × Nat → Ordering :=
  compareLex (compareOn fun e => e.1)
    (compareLex (compareOn fun e => e.2.1.rank) (compareOn fun e => e.2.2))

/-- The drawing of an automaton; there is none if a state is used that it does not carry. -/
def drawing? (a : Automaton k) : Option Drawing := do
  let order := a.ordered
  let arcs ← a.arcs.mapM fun e => do
    return (← e.source.position? order, e.symbol, ← e.target.position? order)
  let start ← a.start.position? order
  let finals ← a.acceptingStates.mapM fun s => do
    return (← s.position? order, s.token.getD "")
  return ⟨Ordered.ofList Drawing.arcOrder arcs, start,
    Ordered.ofList (compareOn Prod.fst) finals⟩

/-- The digits of a number. -/
def Drawing.digits (n : Nat) : List Char := Nat.toDigits 10 n

/-- The line of an arc. -/
def Drawing.arcLine (e : Nat × Symbol × Nat) : List Char :=
  "  ".toList ++ digits e.1 ++ " -> ".toList ++ digits e.2.2 ++ " [label=\"".toList ++ e.2.1.label ++
    "\"];\n".toList

/-- The line of an accepting state. -/
def Drawing.finalLine (f : Nat × String) : List Char :=
  "  ".toList ++ digits f.1 ++ " [shape=\"doublecircle\", xlabel=\"".toList ++ f.2.toList ++
    "\"];\n".toList

/-- The text of a drawing. -/
def Drawing.text (d : Drawing) : List Char :=
  "digraph \x7b\n  rankdir=\"LR\";\n".toList ++ d.arcs.flatMap arcLine ++
    "  start [shape=\"plaintext\"];\n  start -> ".toList ++ digits d.start ++ ";\n".toList ++
    d.finals.flatMap finalLine ++ "\x7d\n".toList

/-- The text of the automaton's drawing. -/
def dot? (a : Automaton k) : Option String := a.drawing?.map fun d => String.ofList d.text

end LexicalAutomata.Automaton
