/-
# `LexicalAutomata.Node` — untyped expression trees, and the expressions they stand for

A front end hands over trees whose nodes have a kind by name, perhaps a text, and children.  Six
kinds stand for the operators of `Expr`, each with its own demand on text and children; a node that
meets the demand is `LocallyWellFormed`.  Of several faults in a tree the first in pre-order is
reported: a node is examined before its children, and these from left to right.
-/
import LexicalAutomata.Error
import LexicalAutomata.Expr.Basic

namespace LexicalAutomata

/-- An untyped expression tree. -/
inductive Node where
  /-- A node of a kind, with a text or none, and its children. -/
  | mk (kind : String) (text : Option String) (children : List Node)

namespace Node

/-- The kind of the root. -/
def kind : Node → String
  | mk kind _ _ => kind

/-- The text of the root. -/
def text : Node → Option String
  | mk _ text _ => text

/-- The children of the root. -/
def children : Node → List Node
  | mk _ _ children => children

/-- The operators on one expression. -/
inductive Unary where
  | optional
  | zeroOrMore
  | oneOrMore
deriving DecidableEq

/-- The expression that an operator makes of another. -/
def Unary.apply : Unary → Expr → Expr
  | .optional => .optional
  | .zeroOrMore => .zeroOrMore
  | .oneOrMore => .oneOrMore

/-- The kinds of nodes: a text, a list of expressions, or an operator on one expression. -/
inductive Kind where
  | literal
  | sequence
  | alternation
  | unary (operator : Unary)
deriving DecidableEq

/-- The name of a kind. -/
def Kind.name : Kind → String
  | .literal => "literal"
  | .sequence => "sequence"
  | .alternation => "alternation"
  | .unary .optional => "optional"
  | .unary .zeroOrMore => "zero_or_more"
  | .unary .oneOrMore => "one_or_more"

/-- The kind of a name. -/
def Kind.ofName? (name : String) : Option Kind :=
  [.literal, .sequence, .alternation, .unary .optional, .unary .zeroOrMore,
    .unary .oneOrMore].find? fun k : Kind => k.name == name

theorem Kind.ofName?_name (k : Kind) : ofName? k.name = some k := by
  rcases k with _ | _ | _ | (_ | _ | _) <;> rfl

theorem Kind.name_eq_of_ofName? {name : String} {k : Kind} (h : ofName? name = some k) :
    k.name = name := by
  simpa using List.find?_some h

mutual

/-- The expression that a tree stands for, or its first fault.  Where the number of children is
wrong, the text is not looked at. -/
def toExpr : Node → Except Error Expr
  | mk name text children =>
      match Kind.ofName? name with
      | none => .error (.unknownNode name)
      | some .literal =>
          match children, text with
          | _ :: _, _ => .error (.malformedNode name .literalWithChildren)
          | [], none => .error (.malformedNode name .missingText)
          | [], some t => .ok (.literal t)
      | some .sequence =>
          match text with
          | some _ => .error (.malformedNode name .unexpectedText)
          | none => (toExprs children).map .sequence
      | some .alternation =>
          match children, text with
          | [], _ => .error (.malformedNode name .noAlternative)
          | _ :: _, some _ => .error (.malformedNode name .unexpectedText)
          | _ :: _, none => (toExprs children).map .alternation
      | some (.unary operator) =>
          match children, text with
          | [_], some _ => .error (.malformedNode name .unexpectedText)
          | [child], none => (toExpr child).map operator.apply
          | _, _ => .error (.malformedNode name (.childCount children.length))

/-- The expressions that the trees stand for, or the first fault. -/
def toExprs : List Node → Except Error (List Expr)
  | [] => .ok []
  | n :: ns => do
      let e ← toExpr n
      let es ← toExprs ns
      return e :: es

end

/-! ## Well-formed trees -/

/-- The root is of a known kind and has the text and the number of children that its kind demands. -/
inductive LocallyWellFormed : Node → Prop
  | literal (text : String) : LocallyWellFormed (mk "literal" (some text) [])
  | sequence (children : List Node) : LocallyWellFormed (mk "sequence" none children)
  | alternation {children : List Node} : children ≠ [] →
      LocallyWellFormed (mk "alternation" none children)
  | optional (child : Node) : LocallyWellFormed (mk "optional" none [child])
  | zeroOrMore (child : Node) : LocallyWellFormed (mk "zero_or_more" none [child])
  | oneOrMore (child : Node) : LocallyWellFormed (mk "one_or_more" none [child])

mutual

/-- The nodes of a tree in pre-order. -/
def preorder : Node → List Node
  | mk kind text children => mk kind text children :: preorderAll children

/-- The nodes of trees in pre-order, from left to right. -/
def preorderAll : List Node → List Node
  | [] => []
  | n :: ns => preorder n ++ preorderAll ns

end

end Node

end LexicalAutomata
