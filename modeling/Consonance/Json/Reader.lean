import Consonance.Number.Integer
import Consonance.Value.Basic

/-!
# Reading JSON

A JSON text is read as a value.  A number with neither a fraction nor an exponent is an
integer, and any other number a floating-point number.  `NaN`, `Infinity` and its negative
are floating-point numbers as well.  If an object mentions a key twice, the last value
counts, in the place of the first.

Each reading step gets the text that is left and returns the text after what it read.
The steps nest as deep as the text does, and the length of the text bounds their depth.
-/

namespace Consonance.Json

open Consonance.Number Consonance.Text

/-- Whether JSON ignores a character between its parts. -/
def isSpace (c : Char) : Bool := c == ' ' || c == '\n' || c == '\t' || c == '\r'

/-- The text without the space in front. -/
def skipSpace (cs : List Char) : List Char := cs.dropWhile isSpace

def hex4? (a b c d : Char) : Option Nat := do
  let a ← hexValue? a
  let b ← hexValue? b
  let c ← hexValue? c
  let d ← hexValue? d
  return ((a * 16 + b) * 16 + c) * 16 + d

/-- The number of the character that a letter after a backslash stands for. -/
def escaped? : Char → Option Nat
  | 'n' => some 0x0A
  | 't' => some 0x09
  | 'r' => some 0x0D
  | 'b' => some 0x08
  | 'f' => some 0x0C
  | c => if c = '"' ∨ c = '\\' ∨ c = '/' then some c.toNat else none

/-- The numbers of the characters up to the closing quote, added in front of `before`, and the
text after the quote.  A character beyond the first plane may come as two numbers. -/
def readNumbers (before : List Nat) : List Char → Option (List Nat × List Char)
  | [] => none
  | '"' :: rest => some (before.reverse, rest)
  | '\\' :: 'u' :: a :: b :: c :: d :: rest =>
    match hex4? a b c d with
    | some n => readNumbers (n :: before) rest
    | none => none
  | '\\' :: c :: rest =>
    match escaped? c with
    | some n => readNumbers (n :: before) rest
    | none => none
  | c :: rest => readNumbers (c.toNat :: before) rest

/-- Whether a number is the first half of a pair. -/
def isHighHalf (n : Nat) : Bool := 0xD800 ≤ n && n < 0xDC00

/-- Whether a number is the second half of a pair. -/
def isLowHalf (n : Nat) : Bool := 0xDC00 ≤ n && n < 0xE000

/-- The character of a number.  Half a pair stands for no character and is replaced. -/
def ofNumber (n : Nat) : Char := if isHighHalf n || isLowHalf n then '\ufffd' else Char.ofNat n

/-- The character that two halves of a pair stand for. -/
def ofPair (high low : Nat) : Char :=
  Char.ofNat (0x10000 + (high - 0xD800) * 0x400 + (low - 0xDC00))

/-- The characters of some numbers, of which two can make a pair. -/
def ofNumbers : List Nat → List Char
  | [] => []
  | [n] => [ofNumber n]
  | n :: m :: rest =>
    if isHighHalf n && isLowHalf m then ofPair n m :: ofNumbers rest
    else ofNumber n :: ofNumbers (m :: rest)

/-- The text up to the closing quote, and the text after the quote. -/
def readText (cs : List Char) : Option (String × List Char) := do
  let (numbers, rest) ← readNumbers [] cs
  return (String.ofList (ofNumbers numbers), rest)

/-- A run of decimal digits as a number and the text after it. -/
def readDigits (cs : List Char) : List Char × List Char :=
  (cs.takeWhile Char.isDigit, cs.dropWhile Char.isDigit)

/-- The number that some digits stand for. -/
def digitsValue (cs : List Char) : Nat := ofDigits (cs.map fun c => c.toNat - '0'.toNat)

/-- An optional fraction: its digits, whether there is one, and the text after it. -/
def readFraction : List Char → List Char × Bool × List Char
  | '.' :: rest => let (digits, after) := readDigits rest; (digits, true, after)
  | cs => ([], false, cs)

def readSignedDigits : List Char → Int × List Char
  | '-' :: rest => let (digits, after) := readDigits rest; (-(digitsValue digits : Int), after)
  | '+' :: rest => let (digits, after) := readDigits rest; ((digitsValue digits : Int), after)
  | cs => let (digits, after) := readDigits cs; ((digitsValue digits : Int), after)

/-- An optional exponent: its value, whether there is one, and the text after it. -/
def readExponent : List Char → Int × Bool × List Char
  | 'e' :: rest | 'E' :: rest => let (n, after) := readSignedDigits rest; (n, true, after)
  | cs => (0, false, cs)

def readMagnitude (negative : Bool) (cs : List Char) : Option (Value × List Char) :=
  let (whole, rest) := readDigits cs
  if whole.isEmpty then none
  else
    let (fraction, hasFraction, rest) := readFraction rest
    let (power, hasPower, rest) := readExponent rest
    if hasFraction || hasPower then
      let digits := digitsValue (whole ++ fraction)
      some (.float (.ofDecimal negative digits (power - fraction.length)), rest)
    else
      let n : Int := digitsValue whole
      some (.int (if negative then -n else n), rest)

def readNumber : List Char → Option (Value × List Char)
  | '-' :: rest => readMagnitude true rest
  | cs => readMagnitude false cs

/-- Puts a field into a record, in the place of an earlier one under the same key. -/
def putField (key : String) (v : Value) : List (Value × Value) → List (Value × Value)
  | [] => [(.text key, v)]
  | (k, w) :: rest =>
    match k with
    | .text s => if s = key then (k, v) :: rest else (k, w) :: putField key v rest
    | _ => (k, w) :: putField key v rest

mutual

def readValue : (depth : Nat) → List Char → Option (Value × List Char)
  | 0, _ => none
  | depth + 1, cs =>
    match skipSpace cs with
    | '"' :: rest => do
      let (s, rest) ← readText rest
      return (.text s, rest)
    | '[' :: rest =>
      match skipSpace rest with
      | ']' :: after => some (.list [], after)
      | rest => do
        let (items, rest) ← readItems depth rest
        return (.list items, rest)
    | c :: rest =>
      if c = '\x7b' then
        match skipSpace rest with
        | d :: after =>
          if d = '\x7d' then some (.record [], after) else do
            let (fields, rest) ← readFields [] depth (d :: after)
            return (.record fields, rest)
        | [] => none
      else readAtom (c :: rest)
    | [] => none

def readAtom (cs : List Char) : Option (Value × List Char) :=
  match cs with
  | 'n' :: 'u' :: 'l' :: 'l' :: rest => some (.nothing, rest)
  | 't' :: 'r' :: 'u' :: 'e' :: rest => some (.truth true, rest)
  | 'f' :: 'a' :: 'l' :: 's' :: 'e' :: rest => some (.truth false, rest)
  | 'N' :: 'a' :: 'N' :: rest => some (.float (.undefined 1), rest)
  | 'I' :: 'n' :: 'f' :: 'i' :: 'n' :: 'i' :: 't' :: 'y' :: rest =>
    some (.float (.infinite false), rest)
  | '-' :: 'I' :: 'n' :: 'f' :: 'i' :: 'n' :: 'i' :: 't' :: 'y' :: rest =>
    some (.float (.infinite true), rest)
  | cs => readNumber cs

/-- Reads the items of an array up to its end. -/
def readItems : (depth : Nat) → List Char → Option (List Value × List Char)
  | 0, _ => none
  | depth + 1, cs => do
    let (v, rest) ← readValue depth cs
    match skipSpace rest with
    | ',' :: rest => do
      let (items, rest) ← readItems depth rest
      return (v :: items, rest)
    | ']' :: rest => return ([v], rest)
    | _ => none

/-- Reads the fields of an object up to its end, after those that are read already. -/
def readFields (earlier : List (Value × Value)) :
    (depth : Nat) → List Char → Option (List (Value × Value) × List Char)
  | 0, _ => none
  | depth + 1, cs =>
    match skipSpace cs with
    | '"' :: rest => do
      let (key, rest) ← readText rest
      match skipSpace rest with
      | ':' :: rest => do
        let (v, rest) ← readValue depth rest
        let fields := putField key v earlier
        match skipSpace rest with
        | c :: rest =>
          if c = ',' then readFields fields depth rest
          else if c = '\x7d' then return (fields, rest)
          else none
        | [] => none
      | _ => none
    | _ => none

end

example : (readText "a\\n\\ud83d\\ude00\", 1".toList).map Prod.fst = some "a\n😀" := by
  decide +kernel

def read (s : String) : Option Value := do
  let cs := s.toList
  let (v, rest) ← readValue (cs.length + 1) cs
  if (skipSpace rest).isEmpty then return v
  none

end Consonance.Json
