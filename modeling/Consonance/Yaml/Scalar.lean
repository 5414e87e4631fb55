import Consonance.Number.Decimal
import Consonance.Number.Radix
import Consonance.Text.Base64
import Consonance.Text.Case
import Consonance.Value.Arithmetic
import Consonance.Yaml.Form

/-!
# The values of scalars

The value of a scalar follows from its kind and its characters.  The kind may be given by a
tag, so the characters may be anything.  Numbers are read leniently then: what is left after
the sign and the base may have a sign and blanks of its own, and the digits of every script
count.

A scalar that is no datum of its kind fails.  There is no common cause, since each kind is
read in its own way.
-/

namespace Consonance.Yaml

open Consonance.Number Consonance.Text

def dropUnderscores (codes : List Nat) : List Nat := codes.filter (· ≠ '_'.toNat)

/-- The characters with the given numbers.  A number of no character gives one that is
neither a digit nor a blank. -/
def charsOf (codes : List Nat) : List Char := codes.map Char.ofNat

/-- The characters in small letters.  A number of no character stays and ends a word. -/
def lowerCodes (codes : List Nat) : List Nat :=
  (codes.splitBy fun m n => decide (m.isValidChar ↔ n.isValidChar)).flatMap fun run =>
    if run.all (·.isValidChar) then codesOf (lowerFrom [] (charsOf run)) else run

/-- Splits off an optional sign.  The flag is set for a minus.  There must be a character. -/
def requireSign : List Nat → Except Failure (Bool × List Nat)
  | [] => .error .noSuchItem
  | n :: rest =>
    if n = '-'.toNat then .ok (true, rest)
    else if n = '+'.toNat then .ok (false, rest)
    else .ok (false, n :: rest)

/-- The parts of a text between colons. -/
def codeParts : List Nat → List (List Nat)
  | [] => [[]]
  | n :: rest =>
    match codeParts rest with
    | [] => [[n]]
    | part :: parts => if n = ':'.toNat then [] :: part :: parts else (n :: part) :: parts

/-! ## Integers -/

def wholeOf (codes : List Nat) : Except Failure Int :=
  match readIntegerChars (charsOf codes) with
  | .ok n => .ok n
  | .error .malformed => .error (.invalid (.malformedInteger 10 (.ofCodes codes)))
  | .error (.tooLong digits) => .error (.invalid (.tooManyDigits digits))

def radixOf (base : Nat) (codes : List Nat) : Except Failure Int :=
  match readRadix base (charsOf codes) with
  | some n => .ok n
  | none => .error (.invalid (.malformedInteger base (.ofCodes codes)))

def magnitudeOf (codes : List Nat) : Except Failure Int :=
  match charsOf (codes.take 2) with
  | [] => .error .noSuchItem
  | ['0', 'b'] => radixOf 2 (codes.drop 2)
  | ['0', 'x'] => radixOf 16 (codes.drop 2)
  | '0' :: _ => radixOf 8 codes
  | _ =>
    if codes.contains ':'.toNat then do
      let parts ← (codeParts codes).mapM wholeOf
      return parts.foldl (fun n part => 60 * n + part) 0
    else wholeOf codes

def integerOf (codes : List Nat) : Except Failure Int := do
  let (negative, body) ← requireSign (dropUnderscores codes)
  let n ← magnitudeOf body
  return if negative then -n else n

/-! ## Floating-point numbers -/

def decimalFloat (codes : List Nat) : Except Failure Binary64 :=
  match readDecimal (charsOf codes) with
  | some x => .ok x
  | none => .error (.invalid (.malformedNumber (.ofCodes codes)))

/-- The sum of some numbers, each times a power of sixty. -/
def sixtiesFrom (base : Int) (sum : Quantity) : List Binary64 → Except Failure Quantity
  | [] => .ok sum
  | x :: rest => do
    let term ← Quantity.apply .mul (.float x) (.int base)
    sixtiesFrom (60 * base) (← Quantity.apply .add sum term) rest

/-- The floating-point number that a scalar is. -/
def floatOf (codes : List Nat) : Except Failure Binary64 := do
  let (negative, body) ← requireSign (lowerCodes (dropUnderscores codes))
  if body = codesOf ['.', 'n', 'a', 'n'] then return .undefined 1
  else
    let x ←
      if body = codesOf ['.', 'i', 'n', 'f'] then pure (.infinite false)
      else if body.contains ':'.toNat then do
        let parts ← (codeParts body).mapM decimalFloat
        match ← sixtiesFrom 1 (.float (.zero false)) parts.reverse with
        | .float x => pure x
        | _ => pure .noNumber
      else decimalFloat body
    return if negative then x.neg else x

/-! ## Other kinds -/

/-- The words for truth values in small letters. -/
def truths : List (String × Bool) :=
  [("yes", true), ("no", false), ("true", true), ("false", false), ("on", true), ("off", false)]

/-- The truth value that a scalar is. -/
def truthOf (codes : List Nat) : Except Failure Bool :=
  let word := Value.ofCodes (lowerCodes codes)
  match truths.find? fun entry => word.equal (.text entry.1) with
  | some (_, b) => .ok b
  | none => .error (.noSuchKey word)

def binaryOf (codes : List Nat) : Except Failure Value :=
  if codes.all (· < 128) then
    match bytesOf (charsOf codes) with
    | some content => .ok (.atom (.bytes content))
    | none => malformed
  else malformed

def timeOf (codes : List Nat) : Except Failure Value :=
  let body := if codes.getLast? = some lineFeed then codes.dropLast else codes
  match timeAt? (charsOf body) with
  | some t => t.value
  | none => .error .noTime

/-- The value of a scalar of a kind. -/
def scalarValue (tag : Tag) (codes : List Nat) : Except Failure Value :=
  match tag with
  | .null => .ok .nothing
  | .bool => do return .truth (← truthOf codes)
  | .int => do return .int (← integerOf codes)
  | .float => do return .float (← floatOf codes)
  | .binary => binaryOf codes
  | .timestamp => timeOf codes
  | .str => .ok (.ofCodes codes)
  | _ => malformed

example : (integerOf (codesOf "0x_1F".toList)).toOption = some 31 := by decide +kernel

example : (integerOf (codesOf "-1:30".toList)).toOption = some (-90) := by decide +kernel

example : (truthOf (codesOf "oN".toList)).toOption = some true := by decide +kernel

end Consonance.Yaml
