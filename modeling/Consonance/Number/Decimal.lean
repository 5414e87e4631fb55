import Consonance.Number.Binary64
import Consonance.Number.Integer

/-!
# Decimal texts of floating-point numbers

A floating-point number is read from digits with a point among them and an exponent after
them, or from a word for an infinite or an undefined number.  The point and the exponent are
optional, but one digit is needed.  The digits may come from any script, blanks may stand
around the number, and one sign in front of it.

The number nearest to the decimal is taken.
-/

namespace Consonance.Number

open Consonance.Text

/-- An exponent and nothing after it.  There may be none. -/
def exponentOf? : List Char → Option Int
  | [] => some 0
  | e :: rest =>
    let (negative, digits) := takeSign rest
    if e.toLower = 'e' ∧ !digits.isEmpty ∧ digits.all isDecimal then
      let n : Int := ofDigits (digits.filterMap decimalValue?)
      some (if negative then -n else n)
    else none

def readUnsigned? (negative : Bool) (cs : List Char) : Option Binary64 :=
  let whole := cs.takeWhile isDecimal
  let rest := cs.drop whole.length
  let (places, rest) := match rest with
    | '.' :: rest => (rest.takeWhile isDecimal, rest.dropWhile isDecimal)
    | rest => ([], rest)
  let digits := (whole ++ places).filterMap decimalValue?
  if digits.isEmpty then none
  else (exponentOf? rest).map fun n => .ofDecimal negative (ofDigits digits) (n - places.length)

def infiniteWords : List (List Char) := ["inf".toList, "infinity".toList]

def readDecimal (cs : List Char) : Option Binary64 :=
  let trimmed := ((cs.dropWhile isIntegerBlank).reverse.dropWhile isIntegerBlank).reverse
  let (negative, body) := takeSign trimmed
  let word := body.map Char.toLower
  if infiniteWords.contains word then some (.infinite negative)
  else if word = ['n', 'a', 'n'] then some .noNumber
  else readUnsigned? negative body

example : readDecimal ['1', '.', '5', 'e', '1'] = some (.ofNat 15) := by decide +kernel

example : readDecimal ['.'] = none ∧ readDecimal ['5', '.'] = some (.ofNat 5) := by decide +kernel

end Consonance.Number
