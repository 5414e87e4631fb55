/-!
# Blank characters

What counts as blank around a name or a number: the spaces, the line and
paragraph ends and the information separators of Unicode.  The zero-width
space and the byte order mark are not blank.

`strip` takes the blanks off both ends of a text.
-/

namespace Consonance.Text

def isBlank (c : Char) : Bool :=
  let n := c.toNat
  (0x09 ≤ n && n ≤ 0x0D) || (0x1C ≤ n && n ≤ 0x20) || n == 0x85 || n == 0xA0 || n == 0x1680 ||
    (0x2000 ≤ n && n ≤ 0x200A) || n == 0x2028 || n == 0x2029 || n == 0x202F || n == 0x205F ||
    n == 0x3000

/-- The characters without the blanks at their end. -/
def stripEnd (cs : List Char) : List Char := (cs.reverse.dropWhile isBlank).reverse

/-- The characters without the blanks at either end. -/
def stripChars (cs : List Char) : List Char := stripEnd (cs.dropWhile isBlank)

/-- The text without the blanks at either end. -/
def strip (s : String) : String := String.ofList (stripChars s.toList)

example : stripChars [' ', 'C', '\t'] = ['C'] := by decide

end Consonance.Text
