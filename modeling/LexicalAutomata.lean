import LexicalAutomata.Automaton.Built
import LexicalAutomata.Automaton.Dot
import LexicalAutomata.Automaton.Path
import LexicalAutomata.Expr.Matching
import LexicalAutomata.Lexer
import LexicalAutomata.Node
import LexicalAutomata.Table.Codec
import LexicalAutomata.Proofs.Automaton.Built
import LexicalAutomata.Proofs.Automaton.Consistent
import LexicalAutomata.Proofs.Automaton.Drawing
import LexicalAutomata.Proofs.Automaton.DrawingText
import LexicalAutomata.Proofs.Automaton.Numbering
import LexicalAutomata.Proofs.Automaton.Order
import LexicalAutomata.Proofs.Automaton.Path
import LexicalAutomata.Proofs.Automaton.Renumbering
import LexicalAutomata.Proofs.Automaton.Run
import LexicalAutomata.Proofs.Automaton.Validity
import LexicalAutomata.Proofs.Automaton.WellFormed
import LexicalAutomata.Proofs.Dfa.Access
import LexicalAutomata.Proofs.Dfa.Alike
import LexicalAutomata.Proofs.Dfa.Canonical
import LexicalAutomata.Proofs.Dfa.CanonicalForm
import LexicalAutomata.Proofs.Dfa.Correspondence
import LexicalAutomata.Proofs.Dfa.Exploration
import LexicalAutomata.Proofs.Dfa.Fewest
import LexicalAutomata.Proofs.Dfa.Isomorphism
import LexicalAutomata.Proofs.Dfa.Marking
import LexicalAutomata.Proofs.Dfa.Minimal
import LexicalAutomata.Proofs.Dfa.Order
import LexicalAutomata.Proofs.Dfa.Powerset
import LexicalAutomata.Proofs.Dfa.QuotientOrder
import LexicalAutomata.Proofs.Dfa.Reduced
import LexicalAutomata.Proofs.Dfa.Renumbering
import LexicalAutomata.Proofs.Dfa.Same
import LexicalAutomata.Proofs.Dfa.Separation
import LexicalAutomata.Proofs.Dfa.Subset
import LexicalAutomata.Proofs.Dfa.SubsetOrder
import LexicalAutomata.Proofs.Expr.Language
import LexicalAutomata.Proofs.Expr.Matching
import LexicalAutomata.Proofs.Expr.Reading
import LexicalAutomata.Proofs.Expr.Regular
import LexicalAutomata.Proofs.Expr.Rounds
import LexicalAutomata.Proofs.Grammar
import LexicalAutomata.Proofs.Graph.Reachable
import LexicalAutomata.Proofs.Graph.Renumbering
import LexicalAutomata.Proofs.Graph.Search
import LexicalAutomata.Proofs.Lexer.Canonical
import LexicalAutomata.Proofs.Lexer.Compile
import LexicalAutomata.Proofs.Lexer.Drawing
import LexicalAutomata.Proofs.Lexer.Fewest
import LexicalAutomata.Proofs.Lexer.Ranked
import LexicalAutomata.Proofs.Lexer.Renumbering
import LexicalAutomata.Proofs.Lexer.Representation
import LexicalAutomata.Proofs.Lexer.Shadowed
import LexicalAutomata.Proofs.Lexer.Stages
import LexicalAutomata.Proofs.Lexer.Tokens
import LexicalAutomata.Proofs.Lexer.Viable
import LexicalAutomata.Proofs.Location
import LexicalAutomata.Proofs.Nfa.Closure
import LexicalAutomata.Proofs.Nfa.Construction
import LexicalAutomata.Proofs.Nfa.Elimination
import LexicalAutomata.Proofs.Nfa.EmptyMoves
import LexicalAutomata.Proofs.Nfa.EpsilonFree
import LexicalAutomata.Proofs.Nfa.Exits
import LexicalAutomata.Proofs.Nfa.Fragment
import LexicalAutomata.Proofs.Nfa.Isolation
import LexicalAutomata.Proofs.Nfa.Renumbering
import LexicalAutomata.Proofs.Nfa.Spelling
import LexicalAutomata.Proofs.Node
import LexicalAutomata.Proofs.Ordered
import LexicalAutomata.Proofs.Stage
import LexicalAutomata.Proofs.Table.Codec
import LexicalAutomata.Proofs.Table.Columns
import LexicalAutomata.Proofs.Table.Delimited
import LexicalAutomata.Proofs.Table.Exact
import LexicalAutomata.Proofs.Table.Flatten
import LexicalAutomata.Proofs.Table.Lookup
import LexicalAutomata.Proofs.Table.Text
import LexicalAutomata.Proofs.Tandem
import LexicalAutomata.Proofs.Text.Quoted
import LexicalAutomata.Proofs.Tokenizer
import LexicalAutomata.Proofs.Tokenizer.Local
