/-
# `LexicalAutomata.Table.Flatten` — from an automaton to its table

States are numbered as `ordered` lists them.  A state's token is looked up in the list of names, and
its arcs become edges; an empty move has no place in a table.  A table leaves its record first and is
checked afterwards, as automata are.
-/
import LexicalAutomata.Stage
import LexicalAutomata.Table.Basic

namespace LexicalAutomata.Dfa

/-- The index of a token among the names. -/
def tokenIndex (names : List String) (s : State) : Except Error (Option Nat) :=
  match s.token with
  | none => .ok none
  | some token =>
      match names.findIdx? fun n => n == token with
      | some i => .ok (some i)
      | none => .error (.unknownToken token)

/-- The edge of an arc that leaves a state. -/
def edgeOf (order : List State) (s : State) (e : Arc) : Except Error (Char × Nat) :=
  match e.symbol, e.target.position? order with
  | .epsilon, _ => .error (.unexpectedEpsilon s.label)
  | .char c, some i => .ok (c, i)
  | .char _, none => .error (.defect (.unknownState e.target))

/-- The row of a state. -/
def rowOf (d : Dfa) (names skippable : List String) (order : List State) (s : State) :
    Except Error Table.Row := do
  let token ← tokenIndex names s
  let edges ← (d.arcsFrom s).mapM (edgeOf order s)
  return ⟨token, s.token.any skippable.contains, edges⟩

/-- The rows of all states in order. -/
def toTable (d : Dfa) (names skippable : List String) : Except Error Table := do
  return ⟨← d.ordered.mapM (d.rowOf names skippable d.ordered)⟩

/-- The table of an automaton, checked; `names` are the tokens in ascending order. -/
def flatten (d : Dfa) (names skippable : List String) : Stage Table := do
  let table ← Stage.ofExcept (d.toTable names skippable)
  Stage.note (.table table.stateCount table.destinationCount)
  Stage.ofExcept table.graph.checkDfa
  return table

end LexicalAutomata.Dfa
