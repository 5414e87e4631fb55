import Consonance.Yaml.Tag
import Consonance.Yaml.Time

/-!
# The forms of plain scalars

The form of a plain scalar tells its kind.

* The null words, the empty scalar among them, stand for the absent value.
* The words for yes and no stand for truth values.
* An integer is written in decimal, after `0b` in binary, after `0` in octal, after `0x` in
  hexadecimal, or in decimal parts of base sixty with colons between them.
* A floating-point number has a point.  Its exponent must have a sign.
* A time is written as in `Consonance.Yaml.Time`.  A day alone has two digits for the month
  and two for the day.
* `<<` and `=` are the keys with a special meaning.
* A lone `!`, `&` or `*` has no meaning.
* Everything else is a text.

Underscores may stand among the digits of a number.  One line feed at the end of a scalar
does not matter.
-/

namespace Consonance.Yaml

open Consonance.Number Consonance.Text

def nullWords : List String := ["~", "null", "Null", "NULL"]

def truthWords : List String :=
  ["yes", "Yes", "YES", "no", "No", "NO", "true", "True", "TRUE", "false", "False", "FALSE", "on",
   "On", "ON", "off", "Off", "OFF"]

/-! ## Numbers -/

/-- Whether the characters are digits of a base and underscores. -/
def areDigits (base : Nat) (cs : List Char) : Bool :=
  cs.all fun c => c == '_' || ((hexValue? c).any (· < base))

/-- Whether the characters start with a decimal digit and go on with digits and
underscores. -/
def isDigitRun : List Char → Bool
  | [] => false
  | c :: rest => c.isDigit && areDigits 10 rest

/-- The parts of a text between colons. -/
def colonParts : List Char → List (List Char)
  | [] => [[]]
  | c :: rest =>
    match colonParts rest with
    | [] => [[c]]
    | part :: parts => if c = ':' then [] :: part :: parts else (c :: part) :: parts

/-- Whether a part after a colon is a number below sixty of one or two digits. -/
def isSixtieth : List Char → Bool
  | [c] => c.isDigit
  | [c, d] => '0' ≤ c && c ≤ '5' && d.isDigit
  | _ => false

/-- Whether the characters are a number in base sixty of several parts. -/
def isSexagesimal (cs : List Char) : Bool :=
  match colonParts cs with
  | first :: part :: parts => isDigitRun first && (part :: parts).all isSixtieth
  | _ => false

/-- Whether the characters are an integer, its sign apart. -/
def isMagnitude : List Char → Bool
  | ['0'] => true
  | '0' :: 'b' :: digits => !digits.isEmpty && areDigits 2 digits
  | '0' :: 'x' :: digits => !digits.isEmpty && areDigits 16 digits
  | '0' :: digits => areDigits 8 digits
  | cs => isDigitRun cs || isSexagesimal cs

/-- Whether the characters are the exponent of a number.  There may be none. -/
def isExponent : List Char → Bool
  | [] => true
  | e :: sign :: digits =>
    (e == 'e' || e == 'E') && (sign == '+' || sign == '-') && !digits.isEmpty &&
      digits.all Char.isDigit
  | _ => false

/-- Whether the characters are digits and underscores with an exponent after them. -/
def isFraction (cs : List Char) : Bool :=
  isExponent (cs.dropWhile fun c => c.isDigit || c == '_')

/-- Whether the characters are a floating-point number. -/
def isFloat (cs : List Char) : Bool :=
  let body := (takeSign cs).2
  let whole := body.takeWhile (· != '.')
  match body.drop whole.length with
  | _ :: rest =>
    (isDigitRun whole && isFraction rest) ||
      (isSexagesimal whole && areDigits 10 rest) ||
      (cs.head? == some '.' && rest.head?.any Char.isDigit && isFraction rest) ||
      (whole.isEmpty && ["inf".toList, "Inf".toList, "INF".toList].contains rest) ||
      (cs.head? == some '.' && ["nan".toList, "NaN".toList, "NAN".toList].contains rest)
  | [] => false

def isTime (cs : List Char) : Bool :=
  (timeAt? cs).any fun t => t.clock.isSome || cs.length == "2001-01-01".length

/-! ## Kinds -/

/-- The kind of a scalar with some text in front of a line feed that may end it. -/
def tagOfForm (cs : List Char) : Tag :=
  let s := String.ofList cs
  if truthWords.contains s then .bool
  else if isFloat cs then .float
  else if isMagnitude (takeSign cs).2 then .int
  else if s = "<<" then .merge
  else if nullWords.contains s then .null
  else if isTime cs then .timestamp
  else if s = "=" then .value
  else if s = "!" ∨ s = "&" ∨ s = "*" then .unknown
  else .str

/-- The kind of a plain scalar with the given characters. -/
def tagOfPlain (codes : List Nat) : Tag :=
  let body := if codes.getLast? = some lineFeed then codes.dropLast else codes
  if codes.isEmpty then .null else tagOfForm (body.map Char.ofNat)

example : tagOfPlain (codesOf "1_000".toList) = .int ∧ tagOfPlain (codesOf "08".toList) = .str := by
  decide +kernel

example : tagOfPlain (codesOf ".5".toList) = .float ∧ tagOfPlain (codesOf "-.5".toList) = .str ∧
    tagOfPlain (codesOf "1e5".toList) = .str := by
  decide +kernel

example : tagOfPlain (codesOf "2001-1-1".toList) = .str ∧
    tagOfPlain (codesOf "2001-1-1 0:00:00".toList) = .timestamp := by
  decide +kernel

end Consonance.Yaml
