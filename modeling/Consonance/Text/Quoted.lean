import Consonance.Text.Printable

/-!
# Quoted text

A text inside a message that shows values is written between quotes.  The quotes
are single, unless the text holds a single quote and no double one.  Within the
quotes a backslash and the quote itself are preceded by a backslash, tab and the
line ends have a letter each, and every other character that is not printable
is written by its number in as few of two, four or eight hexadecimal digits as
it needs.  All else stands for itself.
-/

namespace Consonance.Text

/-- A digit of base sixteen, in small letters. -/
def hexDigit (n : Nat) : Char := Nat.digitChar (n % 16)

/-- The last `width` hexadecimal digits of a number, zeros in front. -/
def hexDigits : (width : Nat) → Nat → List Char
  | 0, _ => []
  | width + 1, n => hexDigits width (n / 16) ++ [hexDigit n]

def quoteFor (cs : List Char) : Char :=
  if '\'' ∈ cs ∧ '"' ∉ cs then '"' else '\''

def numbered (n : Nat) : List Char :=
  if n < 0x100 then '\\' :: 'x' :: hexDigits 2 n
  else if n < 0x10000 then '\\' :: 'u' :: hexDigits 4 n
  else '\\' :: 'U' :: hexDigits 8 n

/-- A character as it stands between the given quotes. -/
def quoteChar (quote c : Char) : List Char :=
  if c = quote ∨ c = '\\' then ['\\', c]
  else if c = '\t' then ['\\', 't']
  else if c = '\n' then ['\\', 'n']
  else if c = '\r' then ['\\', 'r']
  else if isPrintable c then [c]
  else numbered c.toNat

/-- The characters of a text between quotes. -/
def quoteChars (cs : List Char) : List Char :=
  let quote := quoteFor cs
  quote :: (cs.flatMap (quoteChar quote) ++ [quote])

def quoted (s : String) : String := String.ofList (quoteChars s.toList)

example : quoteChars ['a', '\''] = ['"', 'a', '\'', '"'] := by decide +kernel

example : quoteChars ['\n', '\x7f'] = ['\'', '\\', 'n', '\\', 'x', '7', 'f', '\''] := by
  decide +kernel

end Consonance.Text
