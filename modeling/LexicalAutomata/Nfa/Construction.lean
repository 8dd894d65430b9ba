/-
# `LexicalAutomata.Nfa.Construction` — productions as an automaton with empty moves

All productions share one start.  Each has an entry of its own, which an empty move leads to, and an
accepting exit that carries its tag; the fragment of its body runs between the two.  The exit is
carried even where the body has no words, so that the check finds a production that is dead.

A fragment never adds an arc that is there, unless the two states it is put between are joined by an
empty move already; that is a defect of who puts it there.
-/
import LexicalAutomata.Grammar
import LexicalAutomata.Nfa.Fragment
import LexicalAutomata.Stage

namespace LexicalAutomata.Nfa

/-- Add an arc that is not there yet. -/
def addNewArc (n : Nfa) (e : Arc) : Except Error Nfa :=
  if n.hasArc e.source e.symbol e.target then .error (.defect (.repeatedArc e))
  else .ok (n.addArc e.source e.symbol e.target)

/-- Add arcs one after the other, none of which is there yet. -/
def addNewArcs (n : Nfa) (arcs : List Arc) : Except Error Nfa := arcs.foldlM addNewArc n

/-- An automaton that carries only a fresh start. -/
def fresh : Stage Nfa := do
  let start ← Stage.freshState none
  return Automaton.new start

/-- Put the fragment of an expression between two states. -/
def addFragment (n : Nfa) (e : Expr) (s t : State) : Stage Nfa := do
  let fragment := e.fragment s t (← Stage.issued)
  Stage.setIssued fragment.2
  Stage.ofExcept (n.addNewArcs fragment.1)

/-- Add a production of a given rank; its exit comes with the automaton. -/
def addProduction (n : Nfa) (p : Production) (rank : Nat) : Stage (Nfa × State) := do
  let entry ← Stage.freshState none
  let exit ← Stage.freshState (some ⟨p.name, rank⟩)
  let carried : Nfa := n.addState exit
  let entered ← Stage.ofExcept (carried.addNewArc (.empty n.start entry))
  return (← entered.addFragment p.body entry exit, exit)

/-- Add a production whose rank is looked up. -/
def addRanked (ranking : Ranking) (n : Nfa) (p : Production) : Stage Nfa :=
  match ranking.rank? p.name with
  | none => throw (.unknownToken p.name)
  | some rank => do return (← n.addProduction p rank).1

/-- The automaton of a list of productions, with empty moves. -/
def ofProductions (productions : List Production) (ranking : Ranking) : Stage Nfa := do
  let n ← productions.foldlM (addRanked ranking) (← fresh)
  Stage.finish n (.epsilonNfa n.states.length n.arcs.length) Graph.checkEpsilonNfa

end LexicalAutomata.Nfa
