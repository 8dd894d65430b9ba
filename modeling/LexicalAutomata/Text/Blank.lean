/-
# `LexicalAutomata.Text.Blank` — white space, and trimming

White space here is the Unicode property: ten ranges, twenty-five characters.  The zero-width space
U+200B and the byte order mark U+FEFF are not in it.
-/
import LexicalAutomata.Text.Ranges

namespace LexicalAutomata.Text

/-- The ranges of white space. -/
def blankRanges : List (Nat × Nat) :=
  [(0x9, 0xD), (0x20, 0x20), (0x85, 0x85), (0xA0, 0xA0), (0x1680, 0x1680), (0x2000, 0x200A),
   (0x2028, 0x2029), (0x202F, 0x202F), (0x205F, 0x205F), (0x3000, 0x3000)]

/-- Whether `c` is white space. -/
def isBlank (c : Char) : Bool := inRanges c blankRanges

/-- The text without the white space at either end. -/
def trim (text : List Char) : List Char :=
  ((text.dropWhile isBlank).reverse.dropWhile isBlank).reverse

end LexicalAutomata.Text
