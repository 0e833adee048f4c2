/-!
# Text/Blank — the characters that count as blank

A character is blank when it has the property `White_Space`: twenty-five characters, all of them
below U+3001.  The zero-width space U+200B, the byte order mark U+FEFF and the separators
U+001C–U+001F are not among them.  `trim` removes the blanks at both ends of a text.
-/

namespace TreeQuery.Text

/-- **The blank characters**, those with the property `White_Space`. -/
def isBlank (c : Char) : Bool :=
  let n := c.toNat
  (0x9 ≤ n && n ≤ 0xD) || n == 0x20 || n == 0x85 || n == 0xA0 || n == 0x1680 ||
    (0x2000 ≤ n && n ≤ 0x200A) || n == 0x2028 || n == 0x2029 || n == 0x202F || n == 0x205F ||
    n == 0x3000

/-- The text after its leading blanks. -/
def dropBlanks (cs : List Char) : List Char :=
  cs.dropWhile isBlank

/-- The text without the blanks at its two ends. -/
def trim (cs : List Char) : List Char :=
  (dropBlanks (dropBlanks cs).reverse).reverse

theorem length_dropBlanks_le (cs : List Char) : (dropBlanks cs).length ≤ cs.length :=
  (List.dropWhile_suffix isBlank).length_le

end TreeQuery.Text
