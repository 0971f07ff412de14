import Monkey.Text.Ranges

/-!
# Blank characters and trimming

The property `White_Space` of the Unicode standard, and removal of blanks at both ends of a line.
-/

namespace Monkey.Text

/-- The characters with the property `White_Space`. -/
def blankRanges : Ranges :=
  [(0x9, 0xD), (0x20, 0x20), (0x85, 0x85), (0xA0, 0xA0), (0x1680, 0x1680), (0x2000, 0x200A),
    (0x2028, 0x2029), (0x202F, 0x202F), (0x205F, 0x205F), (0x3000, 0x3000)]

/-- A character that trimming removes at the ends of a line. -/
def isBlank (c : Char) : Bool :=
  blankRanges.contains c

/-- Drops the longest run at the end of the list whose elements satisfy `p`. -/
def dropEndWhile (p : Char → Bool) (cs : List Char) : List Char :=
  (cs.reverse.dropWhile p).reverse

/-- The text without blanks at either end. -/
def trim (text : String) : String :=
  String.ofList (dropEndWhile isBlank (text.toList.dropWhile isBlank))

end Monkey.Text
