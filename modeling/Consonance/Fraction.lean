import Consonance.Value.Arithmetic

/-!
# Fractions

A fraction is kept in lowest terms.  It is given by two whole numbers, by one number, or by
a text.

A text is digits with a slash and more digits, or digits with a point and an exponent as
they are wanted.  A sign may come first, digits may be divided by single underscores, and
blanks may stand around the whole.  `FractionText.split` takes a text apart along this
grammar, and `FractionText.value` reads the pieces.
-/

namespace Consonance

open Consonance.Text

/-- A positive or negative fraction in lowest terms. -/
structure Fraction where
  num : Int
  den : Nat
  deriving DecidableEq, Repr

namespace Fraction

/-- The fraction in lowest terms, with a positive denominator. -/
def make (num den : Int) : Except Failure Fraction :=
  if den = 0 then Failure.raise (.zeroDenominator num)
  else
    let g : Int := Int.gcd num den
    let sign : Int := if den < 0 then -1 else 1
    .ok ⟨sign * num / g, (den / g).natAbs⟩

def text (f : Fraction) : String := fractionText f.num f.den

example : (make 6 (-8)).toOption = some ⟨-3, 4⟩ := by decide +kernel

end Fraction

/-! ## Texts of fractions -/

/-- The pieces of the text of a fraction. -/
structure FractionText where
  /-- Whether there is a minus. -/
  negative : Bool
  /-- The digits before the slash or the point. -/
  whole : List Nat
  /-- The digits after the slash, if there is one. -/
  below : Option (List Nat) := none
  places : List Nat := []
  /-- Whether the exponent is negative, and its digits. -/
  exponent : Option (Bool × List Nat) := none
  deriving DecidableEq, Repr

namespace FractionText

/-- The digits at the front, with single underscores between them, and the rest. -/
def takeDigits : List Char → List Nat × List Char
  | [] => ([], [])
  | c :: rest =>
    match decimalValue? c with
    | none => ([], c :: rest)
    | some v =>
      match rest with
      | '_' :: d :: more =>
        if isDecimal d then
          let (digits, after) := takeDigits (d :: more)
          (v :: digits, after)
        else ([v], rest)
      | rest =>
        let (digits, after) := takeDigits rest
        (v :: digits, after)

/-- Whether a number starts here: a digit, or a point and a digit. -/
def startsNumber : List Char → Bool
  | '.' :: c :: _ => isDecimal c
  | c :: _ => isDecimal c
  | [] => false

/-- The exponent at the front, if there is one, and the rest. -/
def takeExponent (cs : List Char) : Option (Bool × List Nat) × List Char :=
  match cs with
  | c :: rest =>
    let (negative, body) := Number.takeSign rest
    let (digits, after) := takeDigits body
    if (c = 'e' ∨ c = 'E') ∧ digits ≠ [] then (some (negative, digits), after) else (none, cs)
  | [] => (none, [])

/-- Takes a text apart as a fraction. -/
def split (cs : List Char) : Option FractionText :=
  let (negative, body) := Number.takeSign (cs.dropWhile isBlank)
  let (whole, rest) := takeDigits body
  if !startsNumber body then none
  else
    match rest with
    | '/' :: after =>
      let (below, after) := takeDigits after
      if below ≠ [] && after.all isBlank then some { negative, whole, below := some below }
      else none
    | rest =>
      let (places, after) := match rest with
        | '.' :: after => takeDigits after
        | rest => ([], rest)
      let (exponent, after) := takeExponent after
      if after.all isBlank then some { negative, whole, places, exponent } else none

/-- The number of some digits, if they are not too many to be read. -/
def number (digits : List Nat) : Except Failure Int :=
  if Number.digitLimit < digits.length then .error (.invalid (.tooManyDigits digits.length))
  else .ok (Number.ofDigits digits)

/-- The fraction that the pieces stand for. -/
def value (t : FractionText) : Except Failure Fraction := do
  let whole ← number t.whole
  let signed (n : Int) : Int := if t.negative then -n else n
  match t.below with
  | some below => Fraction.make (signed whole) (← number below)
  | none =>
    let scale : Int := Nat.pow 10 t.places.length
    let num := whole * scale + (← number t.places)
    match t.exponent with
    | none => Fraction.make (signed num) scale
    | some (negative, digits) =>
      let power : Int := Nat.pow 10 (← number digits).toNat
      if negative then Fraction.make (signed num) (scale * power)
      else Fraction.make (signed (num * power)) scale

end FractionText

/-! ## Fractions from values -/

namespace Fraction

def ofText (s : String) : Except Failure Fraction :=
  match FractionText.split s.toList with
  | some t => t.value
  | none => .error (.invalid (.malformedFraction s))

def ofValue (v : Value) : Except Failure Fraction :=
  match v with
  | .text s => ofText s
  | v =>
    match v.exactValue? with
    | some (.ratio num den) => make num den
    | some _ => .error (.overflow .infiniteFraction)
    | none =>
      .error (if v.isNumber then .invalid .undefinedFraction else .mistyped (.notFraction v.kind))

/-- The fraction of a numerator and a denominator.  Without a denominator it is the first value,
and without anything it is zero. -/
def ofValues : List Value → Except Failure Fraction
  | [] => .ok ⟨0, 1⟩
  | [v] => ofValue v
  | [v, .nothing] => ofValue v
  | [v, w] =>
    match v.whole?, w.whole? with
    | some num, some den => make num den
    | _, _ => .error (.mistyped (.notFraction v.kind))
  | _ => .error (.mistyped .arguments)

example : (ofText " -3.25e1 ").toOption = some ⟨-65, 2⟩ ∧
    (ofText "1_0/4").toOption = some ⟨5, 2⟩ := by
  decide +kernel

example : (ofText "1/").toOption = none ∧ (ofText ".").toOption = none := by decide +kernel

end Fraction

end Consonance
