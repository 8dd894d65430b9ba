/-
# `LexicalAutomata.Nfa.EpsilonFree` — empty moves are removed

Every carried state is merged with its closure into one fresh state, which takes over the arcs that
read a character from each member of the closure.  The tag comes from the first accepting member in
ascending order; ranks do not matter yet.  What cannot be reached any more is dropped.
-/
import LexicalAutomata.Nfa.Closure
import LexicalAutomata.Stage

namespace LexicalAutomata.Nfa

/-- A carried state, its closure, and the fresh state that stands for both. -/
structure Merged where
  /-- The carried state. -/
  state : State
  /-- Its closure. -/
  closure : List State
  /-- What they are merged into. -/
  image : State

/-- The tag of the first accepting member. -/
def firstAccept (members : List State) : Option Accept := members.findSome? State.accept

/-- All carried states merged, in ascending order, with fresh states numbered from `first`. -/
def merged (n : Nfa) (first : Nat) : List Merged :=
  n.closures.zipIdx.map fun c => ⟨c.1.1, c.1.2, ⟨first + c.2, firstAccept c.1.2⟩⟩

/-- What a carried state is merged into. -/
def imageOf (all : List Merged) (s : State) : Except Error State :=
  match all.find? fun m => m.state.id == s.id with
  | some m => .ok m.image
  | none => .error (.defect (.unknownState s))

/-- The arcs that leave a state and read a character. -/
def readingArcs (n : Nfa) (s : State) : List Arc :=
  (n.arcsFrom s).filter fun e => e.symbol != .epsilon

/-- Add a merged state and the arcs that it takes over. -/
def addMerged (n : Nfa) (all : List Merged) (acc : Nfa) (m : Merged) : Except Error Nfa :=
  (m.closure.flatMap n.readingArcs).foldlM
    (fun acc e => do return acc.addArc m.image e.symbol (← imageOf all e.target))
    (acc.addState m.image)

/-- The automaton of the merged states that can be reached. -/
def mergeClosures (n : Nfa) (first : Nat) : Except Error Nfa := do
  let all := n.merged first
  let start ← imageOf all n.start
  let complete ← all.foldlM (n.addMerged all) (Automaton.new start)
  return complete.prune

/-- The automaton without its empty moves. -/
def eliminateEpsilon (n : Nfa) : Stage Nfa := do
  let first ← Stage.issued
  Stage.setIssued (first + n.states.length)
  let m ← Stage.ofExcept (n.mergeClosures first)
  Stage.finish m (.nfa m.states.length m.arcs.length) Graph.checkNfa

end LexicalAutomata.Nfa
