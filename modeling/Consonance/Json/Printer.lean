import Consonance.Text.Quoted
import Consonance.Value.Text

/-!
# JSON text

Values are written as JSON in ASCII.  Items are separated by a comma and a blank, and
a key from its value by a colon and a blank.  Keys keep their order.

In a text, the two characters JSON itself needs and the controls with a letter of
their own are escaped by a backslash.  Every other control and every character beyond
ASCII is written by its number in four hexadecimal digits.  Characters beyond the
first plane take two such numbers.

A pitch class is written as its number and an interval as its size.  Pairs and sets are
arrays, and an atom is the text that shows it.
-/

namespace Consonance.Json

open Consonance.Text

/-- A number of 16 bits as an escape. -/
def numberEscape (n : Nat) : List Char := '\\' :: 'u' :: hexDigits 4 n

/-- A character between the quotes of a JSON text. -/
def escapeChar (c : Char) : List Char :=
  if c = '"' ∨ c = '\\' then ['\\', c]
  else if c = '\n' then ['\\', 'n']
  else if c = '\r' then ['\\', 'r']
  else if c = '\t' then ['\\', 't']
  else if c = '\x08' then ['\\', 'b']
  else if c = '\x0c' then ['\\', 'f']
  else
    let n := c.toNat
    if 0x20 ≤ n ∧ n < 0x7f then [c]
    else if n < 0x10000 then numberEscape n
    else
      let beyond := n - 0x10000
      numberEscape (0xD800 + beyond / 0x400) ++ numberEscape (0xDC00 + beyond % 0x400)

def quoteText (s : String) : String :=
  String.ofList ('"' :: (s.toList.flatMap escapeChar ++ ['"']))

/-- A value as the key of a JSON object. -/
def keyText : Value → String
  | .text s => quoteText s
  | v => quoteText v.plain

/-- A floating-point number.  The ones that JSON has no digits for are named. -/
def floatText : Number.Binary64 → String
  | .undefined _ => "NaN"
  | .infinite negative => if negative then "-Infinity" else "Infinity"
  | x => x.text

def numberText : Quantity → String
  | .float x => floatText x
  | .truth b => if b then "true" else "false"
  | q => q.plain

mutual

/-- The pieces that make up the JSON text of a value. -/
def pieces : Value → List String
  | .nothing => ["null"]
  | .truth b => [if b then "true" else "false"]
  | .int n => [toString n]
  | .float x => [floatText x]
  | .text s => [quoteText s]
  | .list items => "[" :: (itemPieces items ++ ["]"])
  | .record fields => "\x7b" :: (fieldPieces fields ++ ["\x7d"])
  | .pitchClass c => [toString c.toInt]
  | .interval i => [numberText i.semitones]
  | .pair a b => "[" :: (pieces a ++ ", " :: (pieces b ++ ["]"]))
  | .members items => "[" :: (itemPieces items ++ ["]"])
  | .atom a => [quoteText a.text]

/-- The pieces of the items of an array. -/
def itemPieces : List Value → List String
  | [] => []
  | [v] => pieces v
  | v :: w :: rest => pieces v ++ ", " :: itemPieces (w :: rest)

/-- The pieces of the fields of an object. -/
def fieldPieces : List (Value × Value) → List String
  | [] => []
  | [(k, v)] => keyText k :: ": " :: pieces v
  | (k, v) :: w :: rest => keyText k :: ": " :: (pieces v ++ ", " :: fieldPieces (w :: rest))

end

def write (v : Value) : String := String.join (pieces v)

def object (fields : List (String × Value)) : Value :=
  .record (fields.map fun field => (.text field.1, field.2))

example : write (object [("a", .list [.int 1, .nothing])]) = "\x7b\"a\": [1, null]\x7d" := by
  decide +kernel

example : escapeChar '😀' = "\\ud83d\\ude00".toList := by decide +kernel

end Consonance.Json
