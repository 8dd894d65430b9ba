/-
# `LexicalAutomata.Table.Basic` — deterministic automata as flat tables

A table has a row for each state, and the first row is the start.  A row holds the index of the token
that the state completes, if it accepts, whether that token is handed on, and the edges in ascending
order of their characters.  `WellFormed` says what every table that comes from an automaton or from
its serialized form satisfies.
-/
import LexicalAutomata.Graph.Validity

namespace LexicalAutomata

/-- A state of a table. -/
structure Table.Row where
  /-- The index of the token that the state completes, in the list of names. -/
  token : Option Nat
  /-- Whether this token is not handed on. -/
  skippable : Bool
  /-- Where the characters lead. -/
  edges : List (Char × Nat)
deriving DecidableEq

/-- A table of states, the start first. -/
structure Table where
  /-- The states. -/
  rows : List Table.Row
deriving DecidableEq

namespace Table

namespace Row

/-- Whether the state accepts. -/
def accepting (r : Row) : Bool := r.token.isSome

/-- Where a character leads. -/
def next? (r : Row) (c : Char) : Option Nat := (r.edges.find? fun e => e.1 == c).map Prod.snd

/-- The characters of the edges ascend. -/
def Sorted (r : Row) : Prop := r.edges.Pairwise fun x y => x.1 < y.1

instance (r : Row) : Decidable r.Sorted := inferInstanceAs (Decidable (List.Pairwise _ _))

end Row

/-- How many states there are. -/
def stateCount (t : Table) : Nat := t.rows.length

/-- The edges of all states, in the order of the states. -/
def edges (t : Table) : List (Char × Nat) := t.rows.flatMap Row.edges

/-- How many edges there are. -/
def destinationCount (t : Table) : Nat := t.edges.length

/-- A state. -/
def row? (t : Table) (s : Nat) : Option Row := t.rows[s]?

/-- Where a character leads from a state. -/
def next? (t : Table) (s : Nat) (c : Char) : Option Nat := (t.row? s).bind fun r => r.next? c

/-- The index of the token that a state completes. -/
def token? (t : Table) (s : Nat) : Option Nat := (t.row? s).bind Row.token

/-- There is a start, the edges of every state ascend, and they lead to states. -/
structure WellFormed (t : Table) : Prop where
  /-- There is a start. -/
  rows_ne_nil : t.rows ≠ []
  /-- The edges of every state ascend. -/
  sorted : ∀ r ∈ t.rows, r.Sorted
  /-- Every edge leads to a state. -/
  inRange : ∀ r ∈ t.rows, ∀ e ∈ r.edges, e.2 < t.stateCount

/-- A table as the checks see it: a state is named by its number. -/
def graph (t : Table) : Graph where
  start := 0
  vertices := t.rows.zipIdx.map fun r => ⟨r.2, r.1.accepting, toString r.2⟩
  arcs := t.rows.zipIdx.flatMap fun r => r.1.edges.map fun e => (r.2, .char e.1, e.2)

end Table

end LexicalAutomata
