import Consonance.Value.Arithmetic

/-!
# Whole numbers from other values

Where a whole number is wanted, a value that plainly stands for one is taken: a truth
value, a floating-point number without a fraction, or a text of decimal digits.  Bytes are
taken for the text that they encode.

A text is read in two attempts.  The first reads the plain form: a minus if there is one,
and digits without a needless zero in front.  Only this attempt minds how long a number is.
The second reads what is left when the text is tidied: blanks around the number and a plus
in front of it go, then zeros in front of the first other digit, then a point with zeros
after it, then single underscores.

`Value.toWhole` says what is wrong with the other values.
-/

namespace Consonance.Value

open Consonance.Number Consonance.Text

def plainWhole (cs : List Char) : Except IntegerFault Int :=
  let (negative, body) := match cs with
    | '-' :: rest => (true, rest)
    | _ => (false, cs)
  let digits := body.takeWhile Char.isDigit
  let n : Int := ofDigits (digits.filterMap decimalValue?)
  if digits.head? = some '0' && body ≠ ['0'] || digits = [] then .error .malformed
  else if digitLimit < digits.length + (if negative then 1 else 0) then
    .error (.tooLong digits.length)
  else if digits.length < body.length then .error .malformed
  else .ok (if negative then -n else n)

/-- A number without the zeros in front, and without the underscores among them.  One zero
stays if no other digit follows.  There is no such number if something else comes first. -/
def dropZeros (cs : List Char) : Option (List Char) :=
  let isFirst (c : Char) : Bool := c = '-' || ('1' ≤ c && c ≤ '9')
  match cs with
  | '0' :: rest =>
    let isZero (c : Char) : Bool := c = '0' || c = '_'
    let last := (rest.takeWhile isZero).getLastD '0'
    match rest.dropWhile isZero with
    | [] => some [last]
    | '.' :: places => some (last :: '.' :: places)
    | c :: more => if isFirst c then some (c :: more) else none
  | c :: rest => if isFirst c then some (c :: rest) else none
  | [] => none

/-- A number without a point and the zeros after it. -/
def dropPlaces (cs : List Char) : List Char :=
  let whole := cs.takeWhile (· ≠ '.')
  match cs.drop whole.length with
  | _ :: c :: places => if (c :: places).all (· = '0') then whole else cs
  | _ => cs

/-- Whether every underscore stands between two other characters.  `afterOther` says that
such a character comes before. -/
def areApart (afterOther : Bool) : List Char → Bool
  | [] => afterOther
  | c :: rest => if c = '_' then afterOther && areApart false rest else areApart true rest

/-- A number without the underscores that divide it. -/
def dropUnderscores (cs : List Char) : List Char :=
  if areApart false cs then cs.filter (· ≠ '_') else cs

/-- A number without what may stand around it, before it and in it. -/
def tidyWhole (cs : List Char) : Option (List Char) :=
  let trimmed := ((cs.dropWhile isIntegerBlank).reverse.dropWhile isIntegerBlank).reverse
  let unsigned := match trimmed with
    | '+' :: '-' :: _ => none
    | '+' :: rest => some rest
    | _ => some trimmed
  (unsigned.bind dropZeros).map fun number => dropUnderscores (dropPlaces number)

def wholeOfText (s : String) : Except Flaw Int :=
  match plainWhole s.toList with
  | .ok n => .ok n
  | .error (.tooLong _) => .error .integerLength
  | .error .malformed =>
    match (tidyWhole s.toList).map plainWhole with
    | some (.ok n) => .ok n
    | _ => .error .integerText

/-- The magnitude that no whole number taken from a floating-point number may reach. -/
def wholeBound : Int := 9223372036854775808

def toWhole : Value → Except Flaw Int
  | .float x =>
    match x.exactValue?, x.toInt? with
    | some (.ratio _ _), some n =>
      if -wholeBound < n ∧ n < wholeBound then .ok n else .error .integerLength
    | some (.ratio _ _), none => .error .fraction
    | _, _ => .error .notFinite
  | .text s => wholeOfText s
  | .atom (.bytes content) =>
    match String.fromUTF8? ⟨content.toArray⟩ with
    | some s => wholeOfText s
    | none => .error .integerText
  | .atom (.broken _) => .error .brokenText
  | v =>
    match v.whole? with
    | some n => .ok n
    | none => .error .notInteger

@[simp] theorem toWhole_int (n : Int) : toWhole (.int n) = .ok n := rfl

example : (wholeOfText " +1_0.00 ").toOption = some 10 ∧ (wholeOfText "1__0").toOption = none := by
  decide +kernel

example : (wholeOfText "00-4").toOption = some (-4) ∧ (wholeOfText "1.").toOption = none := by
  decide +kernel

end Consonance.Value
