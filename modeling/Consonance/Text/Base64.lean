/-!
# Bytes in sixty-four characters

Four characters of six bits each give three bytes.  Other characters among them are passed
over.  An equals sign may fill the last four up.  What comes after a filled group of four
does not count, but a group that is not filled makes the whole text invalid.
-/

namespace Consonance.Text

/-- The six bits of a character, if it has any. -/
def sixBits? (c : Char) : Option Nat :=
  if 'A' ≤ c ∧ c ≤ 'Z' then some (c.toNat - 'A'.toNat)
  else if 'a' ≤ c ∧ c ≤ 'z' then some (c.toNat - 'a'.toNat + 26)
  else if '0' ≤ c ∧ c ≤ '9' then some (c.toNat - '0'.toNat + 52)
  else if c = '+' then some 62
  else if c = '/' then some 63
  else none

/-- The bytes of a text after the first characters of a group.  `left` are the bits of the
last of them that have not gone into a byte. -/
def bytesAfter (place left fills : Nat) : List Char → Option (List UInt8)
  | [] => if place = 0 then some [] else none
  | c :: rest =>
    if c = '=' then
      if 2 ≤ place ∧ 4 ≤ place + fills + 1 then some []
      else bytesAfter place left (if 2 ≤ place then fills + 1 else fills) rest
    else
      match sixBits? c, place with
      | none, _ => bytesAfter place left fills rest
      | some n, 0 => bytesAfter 1 n 0 rest
      | some n, 1 => (bytesAfter 2 (n % 16) 0 rest).map ((4 * left + n / 16).toUInt8 :: ·)
      | some n, 2 => (bytesAfter 3 (n % 4) 0 rest).map ((16 * left + n / 4).toUInt8 :: ·)
      | some n, _ => (bytesAfter 0 0 0 rest).map ((64 * left + n).toUInt8 :: ·)

def bytesOf (cs : List Char) : Option (List UInt8) := bytesAfter 0 0 0 cs

example : bytesOf "Z 2E=".toList = some [103, 97] ∧ bytesOf "Z2E".toList = none := by
  decide +kernel

end Consonance.Text
