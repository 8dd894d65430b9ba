/-
# `LexicalAutomata.Error` — what can go wrong between a grammar and its tables

Every error is a cause with the data that its message names; the wording is in `message` and in the
two functions that it calls for the faults of a node and of a table.  A defect is a promise broken by
the library or by who builds an automaton by hand; it stands apart from the errors that a grammar or
a table can have.
-/
import LexicalAutomata.Automaton.State

namespace LexicalAutomata

/-- What is wrong with an expression node of a known kind. -/
inductive NodeFault where
  /-- A literal has children. -/
  | literalWithChildren
  /-- A literal has no text. -/
  | missingText
  /-- An operator has a text. -/
  | unexpectedText
  /-- An alternation has no children. -/
  | noAlternative
  /-- An operator on one expression has another number of children. -/
  | childCount (found : Nat)
deriving DecidableEq

/-- The wording of a node's fault. -/
def NodeFault.reason : NodeFault → String
  | .literalWithChildren => "a literal has no children"
  | .missingText => "missing text payload"
  | .unexpectedText => "unexpected text payload"
  | .noAlternative => "an alternation needs at least 1 alternative"
  | .childCount found => s!"expected exactly 1 child, found {found}"

/-- What is wrong with a serialized table, or with the names it is used with. -/
inductive TableFault where
  /-- The text is not pairs of hexadecimal digits. -/
  | notHexadecimal
  /-- The bytes end before the table does. -/
  | unexpectedEnd
  /-- The number of states is negative. -/
  | negativeStateCount (count : Int)
  /-- The number of destinations is negative. -/
  | negativeDestinationCount (count : Int)
  /-- There are no states. -/
  | noStartState
  /-- A flag is neither of the two bytes it can be. -/
  | invalidFlag (byte : UInt8)
  /-- An accepting state has no token index, or another state has one. -/
  | tokenMismatch (index : Int) (accepting : Bool)
  /-- The offsets do not begin at zero, ascend, and end at the number of destinations. -/
  | badOffsets
  /-- A symbol is no character. -/
  | invalidScalar (value : Nat)
  /-- A destination is no state. -/
  | destinationOutOfRange (destination : Int)
  /-- Bytes follow the table. -/
  | trailingBytes (count : Nat)
  /-- The symbols of a state's edges do not ascend. -/
  | unsortedEdges (state : Nat)
  /-- A token index exceeds the names. -/
  | tokenOutOfRange (index names : Nat)
deriving DecidableEq

/-- A byte as two hexadecimal digits behind `0x`. -/
def hexByte (byte : UInt8) : String :=
  String.ofList ['0', 'x', Nat.digitChar (byte.toNat / 16), Nat.digitChar (byte.toNat % 16)]

/-- A number in hexadecimal digits behind `0x`. -/
def hexNumber (n : Nat) : String := String.ofList ('0' :: 'x' :: Nat.toDigits 16 n)

/-- The wording of a table's fault. -/
def TableFault.reason : TableFault → String
  | .notHexadecimal => "not hexadecimal text"
  | .unexpectedEnd => "unexpected end of table"
  | .negativeStateCount count => s!"negative state count: {count}"
  | .negativeDestinationCount count => s!"negative destination count: {count}"
  | .noStartState => "no start state"
  | .invalidFlag byte => s!"invalid flag byte {hexByte byte}"
  | .tokenMismatch index accepting =>
      s!"token index {index} on a state with accepting = {accepting}"
  | .badOffsets => "offsets are not a prefix sum of the edges"
  | .invalidScalar value => s!"invalid scalar value {hexNumber value}"
  | .destinationOutOfRange destination => s!"destination {destination} out of range"
  | .trailingBytes count => s!"{count} trailing byte(s)"
  | .unsortedEdges state => s!"edges of state {state} are not sorted"
  | .tokenOutOfRange index names => s!"token index {index} out of range for {names} token(s)"

/-- A broken promise: no stage meets one on an automaton whose states come from one supply. -/
inductive Defect where
  /-- A fragment adds an arc that is there. -/
  | repeatedArc (arc : Arc)
  /-- Two arcs of one state in a subset automaton read the same symbol. -/
  | arcSetTwice (state : State) (symbol : Symbol)
  /-- Two states of one class lead to different classes. -/
  | classesDisagree (state : State) (symbol : Symbol)
  /-- A state is not carried where it is looked up. -/
  | unknownState (state : State)
deriving DecidableEq

/-- The wording of a defect. -/
def Defect.message : Defect → String
  | .repeatedArc arc => s!"transition {arc.label} already exists."
  | .arcSetTwice state symbol =>
      s!"transition {String.ofList symbol.label}({state.label} -> _) set twice."
  | .classesDisagree state symbol =>
      s!"classes of {state.label} disagree on {String.ofList symbol.label}."
  | .unknownState state => s!"state {state.label} is not carried."

/-- An error of one of the stages from a grammar to its table. -/
inductive Error where
  /-- No state accepts. -/
  | noFinalState
  /-- Some states cannot be reached from the start. -/
  | disconnected (unreachable : Nat)
  /-- A state has an empty move where none may be. -/
  | unexpectedEpsilon (state : String)
  /-- Two arcs of one state read the same character. -/
  | duplicateTransition (state : String) (symbol : Char)
  /-- A node is of no kind that stands for an operator. -/
  | unknownNode (kind : String)
  /-- A node of a known kind does not have the parts of its kind. -/
  | malformedNode (kind : String) (fault : NodeFault)
  /-- Two productions have one name. -/
  | duplicateProduction (name : String)
  /-- A token is not in the table of tokens. -/
  | unknownToken (name : String)
  /-- A serialized table cannot be read. -/
  | malformedTable (fault : TableFault)
  /-- A promise is broken. -/
  | defect (cause : Defect)
deriving DecidableEq

/-- The wording of an error. -/
def Error.message : Error → String
  | .noFinalState => "automaton has no final state"
  | .disconnected unreachable =>
      s!"automaton is not a single connected component: {unreachable} unreachable state(s)"
  | .unexpectedEpsilon state => s!"unexpected epsilon transition out of state {state}"
  | .duplicateTransition state symbol =>
      s!"duplicate transition out of state {state} on {String.ofList (Text.quoteChar symbol)}"
  | .unknownNode kind => s!"unknown expression node '{kind}'"
  | .malformedNode kind fault => s!"malformed expression node '{kind}': {fault.reason}"
  | .duplicateProduction name => s!"production '{name}' is defined more than once"
  | .unknownToken name => s!"token '{name}' is missing from the token table"
  | .malformedTable fault => s!"malformed transition table: {fault.reason}"
  | .defect cause => cause.message

end LexicalAutomata
