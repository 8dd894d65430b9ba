/-
# `LexicalAutomata.Lexer` — from a grammar to its lexer

Compilation runs every stage in one session: the productions become an automaton with empty moves,
which loses these, becomes deterministic, is minimized, and is flattened into a table.  A production
is shadowed if the minimized automaton has no accepting state with its token.
-/
import LexicalAutomata.Dfa.Minimal
import LexicalAutomata.Dfa.Subset
import LexicalAutomata.Nfa.Construction
import LexicalAutomata.Nfa.EpsilonFree
import LexicalAutomata.Table.Flatten
import LexicalAutomata.Tokenizer

namespace LexicalAutomata

/-- A compiled grammar. -/
structure Lexer where
  /-- The names of the tokens, ascending. -/
  names : List String
  /-- The minimized automaton. -/
  dfa : Dfa
  /-- Its table. -/
  table : Table
  /-- The productions that never win, in order of declaration. -/
  shadowed : List String

namespace Lexer

/-- A tokenizer at the beginning of a text. -/
def tokenizer (l : Lexer) (text : String) : Except Error Tokenizer :=
  Tokenizer.ofTable l.table l.names text

/-- The names of the productions whose token no accepting state of the automaton has. -/
def shadowedIn (g : Grammar) (d : Dfa) : List String :=
  let tokens := d.acceptingStates.filterMap State.token
  (g.productions.map Production.name).filter fun name => !tokens.contains name

/-- Warn of the productions that never win, if there are any. -/
def warnShadowed (names : List String) : Stage Unit :=
  if names.isEmpty then pure () else Stage.note (.shadowed names)

/-- The stages of a compilation. -/
def build (g : Grammar) : Stage Lexer := do
  Stage.note (.compiling g.productions.length)
  let enfa ← Nfa.ofProductions g.productions g.ranking
  let nfa ← enfa.eliminateEpsilon
  let dfa ← nfa.determinize
  let minimal ← dfa.minimize
  let table ← minimal.flatten g.tokenNames g.skippableTokens
  let shadowed := shadowedIn g minimal
  warnShadowed shadowed
  Stage.note (.done (← Stage.issued))
  return ⟨g.tokenNames, minimal, table, shadowed⟩

/-- The lexer of a grammar, and the session of its compilation. -/
def compileIn (g : Grammar) : Except Error Lexer × Session := (build g).run Session.empty

/-- The lexer of a grammar. -/
def compile (g : Grammar) : Except Error Lexer := (compileIn g).1

end Lexer

end LexicalAutomata
