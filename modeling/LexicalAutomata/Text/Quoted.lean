/-
# `LexicalAutomata.Text.Quoted` — characters and texts written with escapes

Four characters and the backslash have short escapes, a quote may be written behind a backslash, and
a character that would not show, or would join its neighbour, is written by its number in lowercase
hexadecimal digits, `\u{e000}`.  Which quotes are escaped, and where extending characters are,
depends on what the text is written into; each such place is a `Style`.
-/
import LexicalAutomata.Text.Graphic
import LexicalAutomata.Text.Extending

namespace LexicalAutomata.Text

/-- What is escaped beside the backslash, the short escapes and what is not graphic. -/
structure Style where
  /-- The quotes that are written behind a backslash. -/
  quotes : List Char
  /-- Whether extending characters are written by their number. -/
  extending : Bool

/-- An arc label escapes both quotes, and extending characters. -/
def Style.label : Style := ⟨['"', '\''], true⟩

/-- In a literal the first character is written as in a label. -/
def Style.literalHead : Style := Style.label

/-- In a literal, extending characters after the first are left as they are. -/
def Style.literalTail : Style := ⟨['"', '\''], false⟩

/-- A text between double quotes escapes only these, and extending characters. -/
def Style.text : Style := ⟨['"'], true⟩

/-- A character between single quotes escapes only these, and extending characters. -/
def Style.character : Style := ⟨['\''], true⟩

/-- The code point of `c` in hexadecimal digits, between `\u{` and a closing brace. -/
def byNumber (c : Char) : List Char :=
  ['\\', 'u', '\x7b'] ++ Nat.toDigits 16 c.toNat ++ ['\x7d']

/-- One character as the style writes it. -/
def escape (style : Style) (c : Char) : List Char :=
  if c = '\x00' then ['\\', '0']
  else if c = '\t' then ['\\', 't']
  else if c = '\r' then ['\\', 'r']
  else if c = '\n' then ['\\', 'n']
  else if c = '\\' ∨ c ∈ style.quotes then ['\\', c]
  else if (style.extending && isExtending c) || !isGraphic c then byNumber c
  else [c]

/-- The inside of a literal. -/
def escapeLiteral : List Char → List Char
  | [] => []
  | c :: cs => escape .literalHead c ++ cs.flatMap (escape .literalTail)

/-- A literal with its quotes. -/
def quoteLiteral (text : List Char) : List Char := '"' :: escapeLiteral text ++ ['"']

/-- A text between double quotes. -/
def quoteText (text : List Char) : List Char := '"' :: text.flatMap (escape .text) ++ ['"']

/-- A character between single quotes. -/
def quoteChar (c : Char) : List Char := '\'' :: escape .character c ++ ['\'']

theorem escape_ne_nil (style : Style) (c : Char) : escape style c ≠ [] := by
  unfold escape byNumber
  repeat' split
  all_goals simp

end LexicalAutomata.Text
