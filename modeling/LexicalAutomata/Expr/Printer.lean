/-
# `LexicalAutomata.Expr.Printer` — expressions as text

Alternatives stand between bars and items between commas; what is optional or repeated stands in
brackets or braces.  A list is put in parentheses where it stands in a tighter context than its own,
which is 0 for alternatives and 1 for items; an empty list has a text of its own and needs none.
-/
import LexicalAutomata.Expr.Basic
import LexicalAutomata.Text.Quoted

namespace LexicalAutomata.Expr

/-- How a list of expressions is written. -/
structure ListForm where
  /-- The context of the members; a tighter one around the list asks for parentheses. -/
  level : Nat
  /-- What stands between two members. -/
  separator : List Char
  /-- What stands for the empty list. -/
  empty : List Char

/-- Alternatives: `a | b`, and `()` for none. -/
def ListForm.choices : ListForm := ⟨0, [' ', '|', ' '], ['(', ')']⟩

/-- A sequence: `a, b`, and `""` for the empty one. -/
def ListForm.items : ListForm := ⟨1, [',', ' '], ['"', '"']⟩

/-- The written members, joined, and in parentheses if the context is tighter than the list. -/
def ListForm.join (form : ListForm) (members : List (List Char)) (context : Nat) : List Char :=
  if members.isEmpty then form.empty
  else if form.level < context then '(' :: form.separator.intercalate members ++ [')']
  else form.separator.intercalate members

mutual

/-- The expression as it is written in a context. -/
def write : Expr → Nat → List Char
  | .literal text, _ => Text.quoteLiteral text.toList
  | .sequence items, context => ListForm.items.join (writeAll items ListForm.items.level) context
  | .alternation choices, context =>
      ListForm.choices.join (writeAll choices ListForm.choices.level) context
  | .optional body, _ => '[' :: write body 0 ++ [']']
  | .zeroOrMore body, _ => '\x7b' :: write body 0 ++ ['\x7d']
  | .oneOrMore body, _ => '\x7b' :: write body 0 ++ ['\x7d', '+']

/-- Each expression as it is written in a context. -/
def writeAll : List Expr → Nat → List (List Char)
  | [], _ => []
  | e :: es, context => write e context :: writeAll es context

end

/-- The text of an expression in a context. -/
def textIn (e : Expr) (context : Nat) : String := String.ofList (e.write context)

/-- The text of an expression on its own. -/
def text (e : Expr) : String := e.textIn 0

end LexicalAutomata.Expr
