/-!
# Blanks and fields

`isBlank` is the Unicode property White_Space: the characters that separate the fields of a line
and that may surround a count. No-break and ideographic spaces are among them; the zero-width
space and the byte order mark are not.
-/

namespace SparsePoly

/-- Whether a character has the Unicode property White_Space. -/
def isBlank (c : Char) : Bool :=
  let n := c.toNat
  (0x9 ≤ n && n ≤ 0xD) || n == 0x20 || n == 0x85 || n == 0xA0 || n == 0x1680 ||
    (0x2000 ≤ n && n ≤ 0x200A) || n == 0x2028 || n == 0x2029 || n == 0x202F || n == 0x205F ||
    n == 0x3000

/-- The text without the blanks that it begins with. -/
def trimLeft (text : List Char) : List Char := text.dropWhile isBlank

/-- The text without the blanks that it begins and ends with. -/
def trim (text : List Char) : List Char := (trimLeft (trimLeft text).reverse).reverse

/-- The longest parts of a text without blanks, in their order. -/
def fields (text : List Char) : List (List Char) :=
  (text.splitOnP isBlank).filter fun field => !field.isEmpty

end SparsePoly
