import Consonance.Number.Integer

/-!
# Integers in the bases of machines

An integer may be written in base two, eight or sixteen.  The base may be announced after a
zero, by `b`, `o` or `x`.  Blanks may stand around the number and one sign in front of it.
The decimal digits of every script count, and the letters from a to f.  Such a number may be
as long as it likes.
-/

namespace Consonance.Number

open Consonance.Text

/-- The value of a character as a digit below a base. -/
def digitBelow? (base : Nat) (c : Char) : Option Nat :=
  ((decimalValue? c).or (hexValue? c)).filter (· < base)

def baseLetter (base : Nat) : Char := if base = 2 then 'b' else if base = 8 then 'o' else 'x'

/-- A number without the announcement of its base. -/
def dropBase (base : Nat) : List Char → List Char
  | '0' :: c :: rest => if c.toLower = baseLetter base then rest else '0' :: c :: rest
  | cs => cs

def readRadix (base : Nat) (cs : List Char) : Option Int :=
  let (negative, body) := takeSign (cs.dropWhile isIntegerBlank)
  let digits := dropBase base body
  let values := (digits.takeWhile fun c => (digitBelow? base c).isSome).filterMap (digitBelow? base)
  if values.isEmpty || !(digits.drop values.length).all isIntegerBlank then none
  else
    let n := values.foldl (fun n d => base * n + d) 0
    some (if negative then -(n : Int) else n)

example : readRadix 16 ['-', '0', 'x', 'F', 'f'] = some (-255) := by decide +kernel

example : readRadix 8 ['0', '8'] = none ∧ readRadix 2 ['1', '0', '\n'] = some 2 := by
  decide +kernel

end Consonance.Number
