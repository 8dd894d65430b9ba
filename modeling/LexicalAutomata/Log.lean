/-
# `LexicalAutomata.Log` — what a run tells about itself

Compilation and tokenizing leave records.  What happened is an `Event`; its record gives it a level
and a target, and words.
-/

namespace LexicalAutomata

/-- How much a record matters. -/
inductive Level where
  | trace
  | warn
deriving DecidableEq

/-- Which part of the program a record is about. -/
inductive Target where
  | pipeline
  | tokenizer
deriving DecidableEq

/-- A record of the log. -/
structure Record where
  /-- How much it matters. -/
  level : Level
  /-- What it is about. -/
  target : Target
  /-- What it says. -/
  message : String
deriving DecidableEq

/-- What happens in a compilation. -/
inductive Event where
  /-- A compilation begins. -/
  | compiling (productions : Nat)
  /-- The productions have become an automaton with empty moves. -/
  | epsilonNfa (states arcs : Nat)
  /-- The empty moves are gone. -/
  | nfa (states arcs : Nat)
  /-- The automaton is deterministic. -/
  | dfa (states arcs : Nat)
  /-- Indistinguishable states are merged. -/
  | minimized (states before arcs : Nat)
  /-- The automaton is flattened. -/
  | table (states destinations : Nat)
  /-- Some productions never win. -/
  | shadowed (names : List String)
  /-- A compilation ends. -/
  | done (issued : Nat)
deriving DecidableEq

/-- The wording of an event. -/
def Event.message : Event → String
  | .compiling productions => s!"compiling {productions} production(s)"
  | .epsilonNfa states arcs => s!"epsilon-NFA: {states} states, {arcs} transitions"
  | .nfa states arcs => s!"NFA: {states} states, {arcs} transitions"
  | .dfa states arcs => s!"DFA: {states} states, {arcs} transitions"
  | .minimized states before arcs =>
      s!"minimized DFA: {states} states (from {before}), {arcs} transitions"
  | .table states destinations => s!"table: {states} states, {destinations} destinations"
  | .shadowed names => "shadowed by earlier productions: " ++ ", ".intercalate names
  | .done issued => s!"done, {issued} states issued"

/-- Only a production that never wins is worth a warning. -/
def Event.level : Event → Level
  | .shadowed _ => .warn
  | _ => .trace

/-- The record of an event. -/
def Event.record (e : Event) : Record := ⟨e.level, .pipeline, e.message⟩

end LexicalAutomata
