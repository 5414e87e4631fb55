import Consonance.Number.Binary64

/-!
# Shortest decimal text

A binary number is written with the fewest decimal digits that read back as the
same number.  For each count of digits the two neighbours of the number on that
decimal grid are tried.  The first grid with a hit wins, and of two hits the
nearer one, the even one on a tie.

The layout is positional for magnitudes from `10 ^ -4` up to below `10 ^ 16` and
keeps a `.0` there.  Beyond that it is one digit, a fraction if there is one and
an exponent with its sign and at least two digits.
-/

namespace Consonance.Number.Binary64

/-- The decimal `digits * 10 ^ exponent` as a quotient. -/
def decimalQuotient (digits : Nat) (exponent : Int) : Nat × Nat :=
  if 0 ≤ exponent then (digits * Nat.pow 10 exponent.toNat, 1)
  else (digits, Nat.pow 10 (-exponent).toNat)

/-- The power of ten of the first digit of a positive quotient that is at least
`10 ^ -400`. -/
def leadingPower (num den : Nat) : Int :=
  ((Nat.toDigits 10 (num * Nat.pow 10 400 / den)).length : Int) - 401

/-- Whether a decimal reads back as the given magnitude. -/
def readsBack (significand : Nat) (exponent : Int) (digits : Nat) (power : Int) : Bool :=
  let (num, den) := decimalQuotient digits power
  roundQuotient false num den == .finite false significand exponent

/-- The digits of a magnitude on the grid of the given power of ten, if one of its
two neighbours there reads back. -/
def digitsOnGrid? (significand : Nat) (exponent : Int) (power : Int) : Option Nat :=
  let (num, den) := quotient false significand exponent
  let (unit, part) := decimalQuotient 1 power
  -- the magnitude counted in units of the grid
  let scaled := num.toNat * part
  let gap := den * unit
  let low := scaled / gap
  let rest := scaled % gap
  let lowHit := readsBack significand exponent low power
  let highHit := rest ≠ 0 && readsBack significand exponent (low + 1) power
  if lowHit && highHit then
    if 2 * rest < gap then some low
    else if gap < 2 * rest then some (low + 1)
    else if low % 2 = 0 then some low else some (low + 1)
  else if lowHit then some low
  else if highHit then some (low + 1)
  else none

/-- The fewest digits of a positive magnitude that read back, and the power of ten
of the last one.  Seventeen digits always suffice. -/
def shortestDigits (significand : Nat) (exponent : Int) : Nat × Int :=
  let (num, den) := quotient false significand exponent
  let top := leadingPower num.toNat den
  let hit := (List.range 17).findSome? fun (k : Nat) =>
    (digitsOnGrid? significand exponent (top - (k : Nat))).map fun digits =>
      (digits, top - (k : Nat))
  hit.getD (significand, 0)

def zeros (count : Nat) : List Char := List.replicate count '0'

/-- An exponent with its sign and at least two digits. -/
def exponentText (power : Int) : List Char :=
  let digits := Nat.toDigits 10 power.natAbs
  (if power < 0 then '-' else '+') :: (zeros (2 - digits.length) ++ digits)

/-- The layout of digits whose last one has the given power of ten. -/
def layout (digits : List Char) (lastPower : Int) : List Char :=
  let point : Int := digits.length + lastPower
  if 0 < point ∧ point ≤ 16 then
    if 0 ≤ lastPower then digits ++ zeros lastPower.toNat ++ ['.', '0']
    else digits.take point.toNat ++ '.' :: digits.drop point.toNat
  else if -4 < point ∧ point ≤ 0 then
    '0' :: '.' :: (zeros (-point).toNat ++ digits)
  else
    let fraction := digits.drop 1
    digits.take 1 ++ (if fraction.isEmpty then [] else '.' :: fraction) ++
      'e' :: exponentText (point - 1)

/-- The digits without the zeros at their end, and the power of the last one left. -/
def trimZeros (digits : List Char) (lastPower : Int) : List Char × Int :=
  let kept := (digits.reverse.dropWhile (· == '0')).reverse
  (kept, lastPower + ((digits.length - kept.length : Nat) : Int))

def text : Binary64 → String
  | .undefined _ => "nan"
  | .infinite negative => if negative then "-inf" else "inf"
  | .finite negative significand exponent =>
    let body :=
      if significand = 0 then ['0', '.', '0']
      else
        let (digits, power) := shortestDigits significand exponent
        let (digits, power) := trimZeros (Nat.toDigits 10 digits) power
        layout digits power
    String.ofList (if negative then '-' :: body else body)

end Consonance.Number.Binary64
