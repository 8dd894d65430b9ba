/-
# `LexicalAutomata.Grammar` — productions in order of declaration

A lexical grammar is a list of named productions without a repeated name; the order of declaration
decides between productions that match the same text.  The rank of a production counts from one.
-/
import LexicalAutomata.Distinct
import LexicalAutomata.Error
import LexicalAutomata.Expr.Printer
import LexicalAutomata.Ordered

namespace LexicalAutomata

/-- A production: a token's name, and the expression of its texts. -/
structure Production where
  /-- The name of the token. -/
  name : String
  /-- What the token looks like. -/
  body : Expr
  /-- Whether tokens of this production are recognized but not handed on. -/
  skippable : Bool

/-- A production as it is written. -/
def Production.text (p : Production) : String := s!"{p.name} = {p.body.text} ;"

/-- The ranks of tokens: a name's place in the list, counted from one. -/
structure Ranking where
  /-- The names in order of rank. -/
  names : List String

namespace Ranking

/-- The rank of a token. -/
def rank? (r : Ranking) (token : String) : Option Nat :=
  (r.names.findIdx? fun n => n == token).map (· + 1)

/-- How many tokens have a rank. -/
def size (r : Ranking) : Nat := r.names.length

/-- Whether no token has a rank. -/
def isEmpty (r : Ranking) : Bool := r.names.isEmpty

end Ranking

/-- A lexical grammar. -/
structure Grammar where
  /-- The productions, in order of declaration. -/
  productions : List Production
  /-- No two productions have the same name. -/
  names_nodup : (productions.map Production.name).Nodup

namespace Grammar

/-- The grammar of these productions, unless a name occurs again. -/
def ofProductions (productions : List Production) : Except Error Grammar :=
  match h : firstRepeat [] (productions.map Production.name) with
  | some name => .error (.duplicateProduction name)
  | none => .ok ⟨productions, nodup_of_firstRepeat h⟩

/-- Earlier productions rank lower. -/
def ranking (g : Grammar) : Ranking := ⟨g.productions.map Production.name⟩

/-- The names of the tokens, in ascending order: an index of a token is a place in this list. -/
def tokenNames (g : Grammar) : List String :=
  Ordered.ofList compare (g.productions.map Production.name)

/-- The names of the tokens that are not handed on, in ascending order. -/
def skippableTokens (g : Grammar) : List String :=
  Ordered.ofList compare ((g.productions.filter Production.skippable).map Production.name)

/-- The productions as they are written, a line each. -/
def text (g : Grammar) : String := String.join (g.productions.map fun p => p.text ++ "\n")

end Grammar

end LexicalAutomata
