import Consonance.Failure

/-!
# Places in a text

A reader of YAML has to know more of its place in a text than what is left of it.  The
column tells which collection a line belongs to.  The line and the index tell how far back
something began.

A *break* ends a line.  Of the four breaks a line feed and a next-line character count as
the same.  A *space* is only the space character, and a *blank* is a space or a tab.

`length_rest_drop` says how much of the text is left after some characters.
-/

namespace Consonance.Yaml

/-- The outcome for a text that is not well formed. -/
def malformed {α : Type} : Except Failure α := .error .malformedDocument

/-! ## Characters -/

def isBreak (c : Char) : Bool := c == '\n' || c == '\u0085' || c == '\u2028' || c == '\u2029'

/-- Whether a character is a space or a tab. -/
def isBlank (c : Char) : Bool := c == ' ' || c == '\t'

def lineFeed : Nat := 10

/-- The number that a break has in the text of a scalar. -/
def breakCode (c : Char) : Nat := if c = '\u0085' then lineFeed else c.toNat

/-- Whether a text is at its end or starts with a break. -/
def startsBreak : List Char → Bool
  | [] => true
  | c :: _ => isBreak c

/-- Whether a text is at its end or starts with a space or a break. -/
def startsSpace : List Char → Bool
  | [] => true
  | c :: _ => c == ' ' || isBreak c

/-- Whether a text is at its end or starts with a blank or a break. -/
def startsBlank : List Char → Bool
  | [] => true
  | c :: _ => isBlank c || isBreak c

/-- Whether a line starts with three times a character and nothing after it. -/
def startsMarker (mark : Char) : List Char → Bool
  | a :: b :: c :: rest => a == mark && b == mark && c == mark && startsBlank rest
  | _ => false

def startsSeparator (cs : List Char) : Bool := startsMarker '-' cs || startsMarker '.' cs

def codesOf (cs : List Char) : List Nat := cs.map Char.toNat

/-! ## Cursors -/

/-- A place in a text. -/
structure Cursor where
  rest : List Char
  index : Nat := 0
  line : Nat := 0
  /-- The number of characters before it in its line.  Byte order marks do not count. -/
  column : Nat := 0
  deriving DecidableEq, Repr

namespace Cursor

def next (c : Cursor) : Cursor :=
  match c.rest with
  | [] => c
  | ch :: rest =>
    if isBreak ch then ⟨rest, c.index + 1, c.line + 1, 0⟩
    else ⟨rest, c.index + 1, c.line, if ch = '\ufeff' then c.column else c.column + 1⟩

def drop (c : Cursor) : Nat → Cursor
  | 0 => c
  | n + 1 => c.next.drop n

/-- The place after the characters in front that have a property. -/
def dropWhile (p : Char → Bool) (c : Cursor) : Cursor := c.drop (c.rest.takeWhile p).length

@[simp] theorem rest_next (c : Cursor) : c.next.rest = c.rest.tail := by
  unfold next
  split
  · simp_all
  · split <;> simp_all

@[simp] theorem rest_drop (c : Cursor) (n : Nat) : (c.drop n).rest = c.rest.drop n := by
  induction n generalizing c with
  | zero => rfl
  | succ n ih => simp [drop, ih]

theorem length_rest_drop (c : Cursor) (n : Nat) : (c.drop n).rest.length = c.rest.length - n := by
  simp

/-! ## Between tokens -/

/-- The number of characters in front of the next token, and whether there is a break among
them.  They are spaces, breaks and comments. -/
def gap (comment : Bool) : List Char → Nat × Bool
  | [] => (0, false)
  | c :: rest =>
    if isBreak c then ((gap false rest).1 + 1, true)
    else if comment || c == '#' then
      let (n, crossed) := gap true rest
      (n + 1, crossed)
    else if c = ' ' then
      let (n, crossed) := gap false rest
      (n + 1, crossed)
    else (0, false)

/-- The place of the next token, and whether a break comes before it.  A byte order mark in
front of the whole text is passed over. -/
def toToken (c : Cursor) : Cursor × Bool :=
  let c := if c.index = 0 ∧ c.rest.head? = some '\ufeff' then c.next else c
  let (n, crossed) := gap false c.rest
  (c.drop n, crossed)

/-- The place after the rest of a line that holds nothing but a comment. -/
def lineEnd (c : Cursor) : Except Failure Cursor :=
  let c := c.dropWhile (· == ' ')
  let c := if c.rest.head? = some '#' then c.dropWhile (fun ch => !isBreak ch) else c
  if startsBreak c.rest then .ok c.next else malformed

example : (toToken ⟨[' ', '#', 'a', '\n', ' ', 'b'], 3, 0, 3⟩).1 = ⟨['b'], 8, 1, 1⟩ := by
  decide +kernel

end Cursor

end Consonance.Yaml
