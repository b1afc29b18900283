/-!
# Scriptlet.Text.Blank

**Blank characters.** The characters that Unicode counts as white space (property `White_Space`), as
a table of ranges, and the texts made of nothing else. A text of blanks alone holds nothing to read.

The token classes of the language have a narrower notion of white space of their own
(`Scriptlet.Token.Pattern`); this one decides only whether there is a program at all.
-/

namespace Scriptlet.Text

/-- The code points with the property `White_Space`, as inclusive ranges in increasing order. -/
def blankRanges : List (Nat × Nat) :=
  [(0x09, 0x0D), (0x20, 0x20), (0x85, 0x85), (0xA0, 0xA0), (0x1680, 0x1680), (0x2000, 0x200A),
    (0x2028, 0x2029), (0x202F, 0x202F), (0x205F, 0x205F), (0x3000, 0x3000)]

/-- Whether a character is white space in the sense of Unicode. -/
def isBlank (c : Char) : Bool :=
  blankRanges.any fun r => r.1 ≤ c.toNat && c.toNat ≤ r.2

/-- Whether a text consists of blanks alone; the empty text does. -/
def isBlankText (s : String) : Bool :=
  s.toList.all isBlank

/-- The table covers twenty-five code points. -/
example : (blankRanges.map fun r => r.2 + 1 - r.1).sum = 25 := by decide

end Scriptlet.Text
