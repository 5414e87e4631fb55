import Consonance.Yaml.Cursor

/-!
# Quoted scalars

A scalar may stand between single or between double quotes.

Between single quotes a quote is written twice.  Between double quotes a backslash starts an
escape.  An escape may give the number of a character, and that may be half of a surrogate
pair.  So the text of a scalar is the list of the numbers of its characters.

A quoted scalar may run across lines.  The blanks around a break are dropped.  A single line
feed becomes a space, and the first of several is dropped.  After a backslash nothing
becomes of a break.  No line of the scalar may separate documents.
-/

namespace Consonance.Yaml

open Consonance.Text

/-! ## Lines -/

/-- What becomes of a break and of the breaks after it. -/
def folded (first : Nat) (more : List Nat) : List Nat :=
  if first ≠ lineFeed then first :: more else if more.isEmpty then [' '.toNat] else more

/-- A part of a text: the numbers of characters that it gives and how many it takes. -/
structure Piece where
  /-- The numbers of the characters that it gives. -/
  codes : List Nat
  width : Nat
  deriving DecidableEq, Repr

/-- The blanks and breaks at a place inside a quoted scalar.  Only the breaks give
characters.  `fresh` says that the place is at the start of a line. -/
def breaksAt (fresh : Bool) : List Char → Except Failure Piece
  | [] => .ok ⟨[], 0⟩
  | c :: rest =>
    if fresh && startsSeparator (c :: rest) then malformed
    else if isBlank c then do
      let more ← breaksAt false rest
      return ⟨more.codes, more.width + 1⟩
    else if isBreak c then do
      let more ← breaksAt true rest
      return ⟨breakCode c :: more.codes, more.width + 1⟩
    else .ok ⟨[], 0⟩

/-- The blanks at a place inside a quoted scalar, and the breaks among them. -/
def spacesAt (cs : List Char) : Except Failure Piece :=
  let blanks := cs.takeWhile isBlank
  match cs.drop blanks.length with
  | [] => malformed
  | c :: rest =>
    if isBreak c then do
      let more ← breaksAt true rest
      return ⟨folded (breakCode c) more.codes, blanks.length + 1 + more.width⟩
    else .ok ⟨codesOf blanks, blanks.length⟩

/-! ## Escapes -/

/-- The number of the character that a letter after a backslash stands for. -/
def escapeOf? : Char → Option Nat
  | '0' => some 0x00
  | 'a' => some 0x07
  | 'b' => some 0x08
  | 't' | '\t' => some 0x09
  | 'n' => some 0x0A
  | 'v' => some 0x0B
  | 'f' => some 0x0C
  | 'r' => some 0x0D
  | 'e' => some 0x1B
  | ' ' => some 0x20
  | '"' => some 0x22
  | '\\' => some 0x5C
  | '/' => some 0x2F
  | 'N' => some 0x85
  | '_' => some 0xA0
  | 'L' => some 0x2028
  | 'P' => some 0x2029
  | _ => none

/-- The number of hexadecimal digits after a letter that announces some. -/
def escapeWidth? : Char → Option Nat
  | 'x' => some 2
  | 'u' => some 4
  | 'U' => some 8
  | _ => none

/-- The number that some hexadecimal digits write, if there are as many in front. -/
def hexNumber? (width : Nat) (cs : List Char) : Option Nat :=
  let values := (cs.take width).filterMap hexValue?
  if values.length = width then some (values.foldl (fun n d => 16 * n + d) 0) else none

/-- The number of a character, if there is such a character. -/
def requireCode (n : Nat) : Except Failure Nat :=
  if n < 0x110000 then .ok n
  else if n < 0x80000000 then .error (.invalid .characterNumber)
  else .error (.overflow .character)

/-- The escape after a backslash.  Its width counts the backslash. -/
def escapeAt : List Char → Except Failure Piece
  | [] => malformed
  | letter :: rest =>
    if isBreak letter then do
      let more ← breaksAt true rest
      return ⟨more.codes, 2 + more.width⟩
    else
      match escapeOf? letter, escapeWidth? letter with
      | some n, _ => .ok ⟨[n], 2⟩
      | none, some width =>
        match hexNumber? width rest with
        | some n => do return ⟨[← requireCode n], 2 + width⟩
        | none => malformed
      | none, none => malformed

/-! ## Scalars -/

/-- The part of a quoted scalar at a place, or nothing at the closing quote. -/
def pieceAt (quote : Char) : List Char → Except Failure (Option Piece)
  | [] => malformed
  | c :: rest =>
    if c = quote then
      if quote = '\'' ∧ rest.head? = some '\'' then .ok (some ⟨['\''.toNat], 2⟩) else .ok none
    else if quote = '"' ∧ c = '\\' then do return some (← escapeAt rest)
    else if isBlank c || isBreak c then do return some (← spacesAt (c :: rest))
    else .ok (some ⟨[c.toNat], 1⟩)

/-- The text of a quoted scalar from a place inside it to the closing quote.  The width
counts that quote. -/
def quotedFrom (quote : Char) : List Char → Except Failure Piece
  | [] => malformed
  | c :: rest => do
    match ← pieceAt quote (c :: rest) with
    | none => return ⟨[], 1⟩
    | some p =>
      let more ← quotedFrom quote (rest.drop (p.width - 1))
      return ⟨p.codes ++ more.codes, p.width + more.width⟩
termination_by cs => cs.length
decreasing_by
  simp only [List.length_drop, List.length_cons]
  omega

/-- The text of the quoted scalar at a place and the place after it. -/
def quotedAt (quote : Char) (c : Cursor) : Except Failure (List Nat × Cursor) := do
  let p ← quotedFrom quote (c.rest.drop 1)
  return (p.codes, c.drop (1 + p.width))

example : (quotedFrom '\'' ['a', ' ', '\n', ' ', 'b', '\'', 'x']).toOption =
    some ⟨codesOf ['a', ' ', 'b'], 6⟩ := by
  decide +kernel

example : (quotedFrom '"' ['\\', 'x', '4', '1', '"']).toOption = some ⟨[0x41], 5⟩ := by
  decide +kernel

end Consonance.Yaml
