import Consonance.Text.Blank
import Consonance.Text.Digit
import Consonance.Text.Quoted

/-!
# Integers and their decimal text

An integer is written in decimal and has at most 4300 digits there.  A longer
one exists as a number, but no message can show it, and no text with more
digits is read.

Reading is lenient.  Blanks may stand around the number, one sign in front of
it, and single underscores between its digits.  The digits may come from any
script, also mixed.  `readInteger` says which of two faults a text has.  The
digit count is taken over the leading run of digits and judged before what
follows the run.
-/

namespace Consonance.Number

open Consonance.Text

/-- The longest decimal text of an integer. -/
def digitLimit : Nat := 4300

/-- The least magnitude that is too long to be written. -/
def writableBound : Nat := Nat.pow 10 digitLimit

/-- Whether the integer can be written in decimal. -/
def isWritable (n : Int) : Bool := n.natAbs < writableBound

/-- An integer of few digits can be written. -/
theorem isWritable_of_natAbs_lt {n : Int} {k : Nat} (hk : k ≤ digitLimit)
    (h : n.natAbs < Nat.pow 10 k) : isWritable n = true := by
  unfold isWritable writableBound
  -- The limit is not worked out, since the power is far too large.
  generalize digitLimit = limit at hk ⊢
  exact decide_eq_true (Nat.lt_of_lt_of_le h (Nat.pow_le_pow_right (by decide) hk))

/-- Why a text is not read as an integer. -/
inductive IntegerFault where
  | malformed
  /-- The text has this many digits, more than the limit. -/
  | tooLong (digits : Nat)
  deriving DecidableEq, Repr

/-- Whether a blank may stand around an integer.  The information separators
may not. -/
def isIntegerBlank (c : Char) : Bool := isBlank c && !(0x1C ≤ c.toNat && c.toNat ≤ 0x1F)

/-- Splits off an optional sign.  The flag is set for a minus. -/
def takeSign : List Char → Bool × List Char
  | '-' :: rest => (true, rest)
  | '+' :: rest => (false, rest)
  | cs => (false, cs)

/-- A run of digits and underscores, its digit values in order, and the rest of
the text. -/
structure DigitRun where
  /-- The values of the digits, first digit first. -/
  digits : List Nat
  /-- Whether every underscore stands between two digits. -/
  wellSpaced : Bool
  rest : List Char

/-- Reads the run at the front.  `afterDigit` says that the character before was
a digit, so that an underscore may follow. -/
def takeDigits (afterDigit : Bool) : List Char → DigitRun
  | [] => ⟨[], afterDigit, []⟩
  | c :: cs =>
    match decimalValue? c with
    | some v =>
      let run := takeDigits true cs
      { run with digits := v :: run.digits }
    | none =>
      if c = '_' then
        let run := takeDigits false cs
        { run with wellSpaced := afterDigit && run.wellSpaced }
      else ⟨[], afterDigit, c :: cs⟩

/-- The number with the given decimal digits, first digit first. -/
def ofDigits (digits : List Nat) : Nat := digits.foldl (fun n d => 10 * n + d) 0

def readIntegerChars (cs : List Char) : Except IntegerFault Int :=
  let (negative, body) := takeSign (cs.dropWhile isIntegerBlank)
  let run := takeDigits false body
  if !run.wellSpaced then .error .malformed
  else if digitLimit < run.digits.length then .error (.tooLong run.digits.length)
  else if !run.rest.all isIntegerBlank then .error .malformed
  else
    let n : Int := ofDigits run.digits
    .ok (if negative then -n else n)

def readInteger (s : String) : Except IntegerFault Int := readIntegerChars s.toList

theorem ofDigits_append_singleton (digits : List Nat) (d : Nat) :
    ofDigits (digits ++ [d]) = 10 * ofDigits digits + d := by
  simp [ofDigits]

example : (readIntegerChars [' ', '-', '1', '_', '0', ' ']).toOption = some (-10) := by
  decide +kernel

example : (readIntegerChars ['1', '_', '_', '0']).toOption = none := by decide +kernel

example : (readIntegerChars ['²']).toOption = none := by decide +kernel

end Consonance.Number
