/-
# `LexicalAutomata.Text.Ranges` — sets of characters given by ranges of code points

The character classes that are data (graphic, extending, blank) are lists of ranges with both ends
included; a character belongs to the class when one of the ranges holds its code point.
-/

namespace LexicalAutomata.Text

/-- Whether one of the ranges, both ends included, holds the code point of `c`. -/
def inRanges (c : Char) (ranges : List (Nat × Nat)) : Bool :=
  ranges.any fun r => decide (r.1 ≤ c.toNat) && decide (c.toNat ≤ r.2)

end LexicalAutomata.Text
