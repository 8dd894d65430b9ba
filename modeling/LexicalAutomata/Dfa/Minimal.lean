/-
# `LexicalAutomata.Dfa.Minimal` — indistinguishable states become one

Two states are alike as long as nothing tells them apart.  States of different tokens are told apart
from the outset; so are states that read different symbols, or that one symbol leads to states told
apart already.  Pairs are struck out round by round until none is; what is left is an equivalence,
and each class becomes one state.  Classes are numbered by their smallest members, in the order that
`ordered` gives the states.
-/
import LexicalAutomata.Stage

namespace LexicalAutomata.Dfa

/-! ## Which states are alike -/

/-- What tells states apart: the token, and the symbols read with the places they lead to. -/
structure Outline where
  /-- The token of the state. -/
  token : Option String
  /-- Where each symbol leads, by ascending symbols. -/
  moves : List (Symbol × Nat)

/-- The place of a state in the order. -/
def placeOf (order : List State) (s : State) : Except Error Nat :=
  match s.position? order with
  | some i => .ok i
  | none => .error (.defect (.unknownState s))

/-- The outline of a state, by places in the order. -/
def outline (d : Dfa) (order : List State) (s : State) : Except Error Outline := do
  let moves ← (d.arcsFrom s).mapM fun e => do return (e.symbol, ← placeOf order e.target)
  return ⟨s.token, moves⟩

/-- Whether two places are one, or a pair that is not struck out. -/
def alike (pairs : List (Nat × Nat)) (i j : Nat) : Bool :=
  i == j || pairs.contains (Ordered.pair i j).2

/-- Whether two outlines read the same symbols, and each leads to places that are alike. -/
def agree (pairs : List (Nat × Nat)) (x y : Outline) : Bool :=
  x.moves.map Prod.fst == y.moves.map Prod.fst &&
    (x.moves.zip y.moves).all fun m => alike pairs m.1.2 m.2.2

/-- Whether a condition holds of the outlines of a pair. -/
def holdsOf (outlines : List Outline) (p : Outline → Outline → Bool) (pair : Nat × Nat) : Bool :=
  match outlines[pair.1]?, outlines[pair.2]? with
  | some x, some y => p x y
  | _, _ => false

/-- The pairs of two different places, the smaller one first. -/
def allPairs (size : Nat) : List (Nat × Nat) :=
  (List.range size).flatMap fun i => ((List.range size).filter fun j => i < j).map fun j => (i, j)

/-- The pairs that still agree. -/
def agreeing (outlines : List Outline) (pairs : List (Nat × Nat)) : List (Nat × Nat) :=
  pairs.filter (holdsOf outlines (agree pairs))

/-- Strike out pairs until all that are left agree. -/
def refine (outlines : List Outline) (pairs : List (Nat × Nat)) : List (Nat × Nat) :=
  if (agreeing outlines pairs).length < pairs.length then refine outlines (agreeing outlines pairs)
  else pairs
termination_by pairs.length
decreasing_by assumption

/-- The pairs of different places that nothing tells apart. -/
def alikePairs (outlines : List Outline) : List (Nat × Nat) :=
  refine outlines
    ((allPairs outlines.length).filter (holdsOf outlines fun x y => x.token == y.token))

/-! ## Classes -/

/-- The states in order, and their classes. -/
structure Classes where
  /-- The states in order. -/
  order : List State
  /-- The place of the smallest member of each class. -/
  representatives : List Nat
  /-- The class of each place. -/
  classOf : List Nat

/-- The places that are alike to no smaller one. -/
def representatives (alike : Nat → Nat → Bool) (size : Nat) : List Nat :=
  (List.range size).foldl
    (fun found i => if found.any fun r => alike r i then found else found ++ [i]) []

/-- The classes of the states of an automaton. -/
def classes (d : Dfa) : Except Error Classes := do
  let order := d.ordered
  let outlines ← order.mapM (d.outline order)
  let pairs := alikePairs outlines
  let found := representatives (alike pairs) order.length
  return ⟨order, found, (List.range order.length).map fun i => found.findIdx fun r => alike pairs r i⟩

namespace Classes

/-- The fresh state of a class; the tag is that of the smallest member. -/
def state (c : Classes) (first i : Nat) : State :=
  ⟨first + i, do (← c.order[← c.representatives[i]?]?).accept⟩

/-- The fresh states of all classes. -/
def states (c : Classes) (first : Nat) : List State :=
  (List.range c.representatives.length).map (c.state first)

/-- The fresh state of the class of a state. -/
def stateOf (c : Classes) (first : Nat) (s : State) : Except Error State := do
  match c.classOf[← placeOf c.order s]? with
  | some i => return c.state first i
  | none => throw (.defect (.unknownState s))

end Classes

/-! ## The automaton of the classes -/

/-- Set the arc of the classes of an arc's ends, which must not lead elsewhere already. -/
def setClassArc (c : Classes) (first : Nat) (m : Dfa) (e : Arc) : Except Error Dfa := do
  let s ← c.stateOf first e.source
  let t ← c.stateOf first e.target
  match m.target? s e.symbol with
  | some old =>
      if old.id = t.id then return m.setArc s e.symbol t
      else throw (.defect (.classesDisagree s e.symbol))
  | none => return m.setArc s e.symbol t

/-- The automaton whose states are the classes that can be reached, numbered from `first`. -/
def quotient (d : Dfa) (c : Classes) (first : Nat) : Except Error Dfa := do
  let start ← c.stateOf first d.start
  let carried := (c.states first).foldl Automaton.addState (Automaton.new start)
  let complete ← d.arcs.foldlM (setClassArc c first) carried
  return complete.prune

/-- The automaton with its indistinguishable states merged. -/
def minimize (d : Dfa) : Stage Dfa := do
  let classes ← Stage.ofExcept d.classes
  let first ← Stage.issued
  Stage.setIssued (first + classes.representatives.length)
  let m ← Stage.ofExcept (d.quotient classes first)
  Stage.finish m (.minimized m.states.length d.states.length m.arcs.length) Graph.checkDfa

end LexicalAutomata.Dfa
