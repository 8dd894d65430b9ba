/-
# `LexicalAutomata.Location` — places in a text

A place is told by its line and column, which count characters from one, and by its offset, which
counts the bytes of the text before it from zero.
-/

namespace LexicalAutomata

/-- A place in a text. -/
structure Location where
  /-- The line, from one. -/
  line : Nat
  /-- The column, from one. -/
  column : Nat
  /-- The number of bytes before it. -/
  offset : Nat
deriving DecidableEq

namespace Location

/-- The beginning of a text. -/
def initial : Location := ⟨1, 1, 0⟩

/-- The place after a character. -/
def step (l : Location) (c : Char) : Location :=
  if c = '\n' then ⟨l.line + 1, 1, l.offset + c.utf8Size⟩
  else ⟨l.line, l.column + 1, l.offset + c.utf8Size⟩

/-- The place after a text. -/
def advance (l : Location) (text : List Char) : Location := text.foldl step l

/-- Line and column. -/
def label (l : Location) : String := s!"{l.line}:{l.column}"

end Location

end LexicalAutomata
