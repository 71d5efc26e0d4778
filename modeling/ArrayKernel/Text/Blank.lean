import ArrayKernel.Text.Basic

/-!
# Blank characters

The characters with the Unicode property `White_Space`, and texts without
blanks at their ends.  The property has 25 members, of which
`Char.isWhitespace` knows four.
-/

namespace ArrayKernel
namespace Text

/-- The ranges of code points with the property `White_Space`. -/
def blankRanges : List (Nat × Nat) :=
  [(0x09, 0x0D), (0x20, 0x20), (0x85, 0x85), (0xA0, 0xA0), (0x1680, 0x1680),
    (0x2000, 0x200A), (0x2028, 0x2029), (0x202F, 0x202F), (0x205F, 0x205F),
    (0x3000, 0x3000)]

/-- Whether a character has the property `White_Space`. -/
def isBlank (c : Char) : Bool :=
  blankRanges.any fun range => range.1 ≤ c.toNat && c.toNat ≤ range.2

/-- The text without the blanks at its start and its end. -/
def trim (t : Text) : Text :=
  ((t.dropWhile isBlank).reverse.dropWhile isBlank).reverse

end Text
end ArrayKernel
