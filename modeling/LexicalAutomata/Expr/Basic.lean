/-
# `LexicalAutomata.Expr.Basic` — regular expressions over literals, and their languages

The body of a production is built from literals by six operators.  `Expr.Lang e w` is the meaning of
an expression as a relation: one rule for each way a word comes to be in the language, and nothing
about how membership is computed.
-/

namespace LexicalAutomata

/-- A regular expression. -/
inductive Expr where
  /-- Exactly this text. -/
  | literal (text : String)
  /-- One after the other. -/
  | sequence (items : List Expr)
  /-- Any of these. -/
  | alternation (choices : List Expr)
  /-- Zero or one. -/
  | optional (body : Expr)
  /-- Zero or more. -/
  | zeroOrMore (body : Expr)
  /-- One or more. -/
  | oneOrMore (body : Expr)

namespace Expr

/-- `Lang e w`: the word `w` belongs to the language of `e`. -/
inductive Lang : Expr → List Char → Prop
  | literal (text : String) : Lang (.literal text) text.toList
  | emptySequence : Lang (.sequence []) []
  | sequence {e : Expr} {es : List Expr} {u v : List Char} :
      Lang e u → Lang (.sequence es) v → Lang (.sequence (e :: es)) (u ++ v)
  | alternation {e : Expr} {es : List Expr} {w : List Char} :
      e ∈ es → Lang e w → Lang (.alternation es) w
  | absent (e : Expr) : Lang (.optional e) []
  | present {e : Expr} {w : List Char} : Lang e w → Lang (.optional e) w
  | stop (e : Expr) : Lang (.zeroOrMore e) []
  | again {e : Expr} {u v : List Char} :
      Lang e u → Lang (.zeroOrMore e) v → Lang (.zeroOrMore e) (u ++ v)
  | oneOrMore {e : Expr} {u v : List Char} :
      Lang e u → Lang (.zeroOrMore e) v → Lang (.oneOrMore e) (u ++ v)

end Expr

end LexicalAutomata
