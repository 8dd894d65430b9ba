/-
# `LexicalAutomata.Stage` — steps that issue states, leave records, and may fail

A compilation owns one supply of state numbers, counted from zero, and one log.  A stage draws fresh
states from the supply and appends to the log; when it fails, the states stay issued and the records
stay written.  Every stage that makes an automaton leaves its record first and checks its result
afterwards.
-/
import LexicalAutomata.Automaton.Validity
import LexicalAutomata.Log

namespace LexicalAutomata

/-- The supply of state numbers: how many are issued, and so the next one.  They have no bound here; a
counter of 32 bits issues the same ones, provided that it does not overflow. -/
structure Supply where
  /-- How many numbers are issued. -/
  issued : Nat
deriving DecidableEq

/-- The next number, and the supply after it. -/
def Supply.take (s : Supply) : Nat × Supply := (s.issued, ⟨s.issued + 1⟩)

/-- A fresh state with a tag or none, and the supply after it. -/
def Supply.state (s : Supply) (accept : Option Accept) : State × Supply :=
  (⟨s.take.1, accept⟩, s.take.2)

/-- What stages share: the supply of state numbers and the log. -/
structure Session where
  /-- The supply of state numbers. -/
  supply : Supply
  /-- The events so far, in order. -/
  log : List Event

/-- The session of a compilation that has not begun. -/
def Session.empty : Session := ⟨⟨0⟩, []⟩

/-- A step that works in a session and may fail. -/
abbrev Stage (α : Type) := ExceptT Error (StateM Session) α

namespace Stage

variable {α : Type} {k : Automaton.Kind}

/-- How many numbers are issued: the number of the next fresh state. -/
def issued : Stage Nat := do return (← get).supply.issued

/-- The numbers below `n` are issued from now on. -/
def setIssued (n : Nat) : Stage Unit := modify fun s => { s with supply := ⟨n⟩ }

/-- A fresh state. -/
def freshState (accept : Option Accept) : Stage State := do
  let (state, supply) := (← get).supply.state accept
  modify fun s => { s with supply := supply }
  return state

/-- Leave a record. -/
def note (e : Event) : Stage Unit := modify fun s => { s with log := s.log ++ [e] }

/-- Go on with a result, or fail with its error. -/
def ofExcept : Except Error α → Stage α
  | .ok x => pure x
  | .error e => throw e

/-- Leave the record of a new automaton, check it, and hand it on. -/
def finish (a : Automaton k) (event : Event) (check : Graph → Except Error Unit) :
    Stage (Automaton k) := do
  note event
  ofExcept (check a.graph)
  return a

end Stage

end LexicalAutomata
