import Consonance.Yaml.Quoted

/-!
# Block scalars

A block scalar starts after a bar or an angle bracket.  Its lines stand below, further to the
right than the collection around it.  After a bar the breaks are kept.  After an angle
bracket a single break between two lines becomes a space, unless one of the lines starts with
a blank, and the first of several breaks is dropped.

The *header* in the first line may say how far to the right the lines start, and what
becomes of the breaks at the end.  Without a word on that one break is kept.
-/

namespace Consonance.Yaml

/-- What the header of a block scalar says. -/
structure Header where
  /-- Whether all breaks at the end are kept or none is. -/
  keep : Option Bool := none
  /-- How much further to the right the lines start. -/
  increment : Option Nat := none
  deriving DecidableEq, Repr

/-- The header at a place and its width. -/
def headerAt (h : Header) (cs : List Char) : Except Failure (Header × Nat) :=
  match cs with
  | [] => .ok (h, 0)
  | c :: rest =>
    if startsSpace (c :: rest) then .ok (h, 0)
    else if h.keep.isNone && (c == '+' || c == '-') then do
      let (h, n) ← headerAt { h with keep := some (c == '+') } rest
      return (h, n + 1)
    else if h.increment.isNone && c.isDigit && c != '0' then do
      let (h, n) ← headerAt { h with increment := some (c.toNat - '0'.toNat) } rest
      return (h, n + 1)
    else malformed

/-- The empty lines in front of the first line: their breaks, how many characters they take,
and the greatest number of spaces in a row. -/
def emptyLines (spaces : Nat) : List Char → Piece × Nat
  | [] => (⟨[], 0⟩, spaces)
  | c :: rest =>
    if c = ' ' then
      let (more, deepest) := emptyLines (spaces + 1) rest
      ({ more with width := more.width + 1 }, deepest)
    else if isBreak c then
      let (more, deepest) := emptyLines 0 rest
      (⟨breakCode c :: more.codes, more.width + 1⟩, max spaces deepest)
    else (⟨[], 0⟩, spaces)

/-- The breaks at a column, and how many characters pass before the next line starts.  At
most `indent` spaces of a line are passed over. -/
def breaksBelow (indent column : Nat) : List Char → Piece
  | [] => ⟨[], 0⟩
  | c :: rest =>
    if c = ' ' ∧ column < indent then
      let more := breaksBelow indent (column + 1) rest
      { more with width := more.width + 1 }
    else if isBreak c then
      let more := breaksBelow indent 0 rest
      ⟨breakCode c :: more.codes, more.width + 1⟩
    else ⟨[], 0⟩

/-- Whether a line starts with a blank. -/
def isInset (cs : List Char) : Bool := cs.head?.any isBlank

/-- Lines of a block scalar. -/
structure BlockLines where
  /-- Their text without the breaks after the last line. -/
  codes : List Nat
  /-- The break at the end of the last line, if there is one. -/
  last : List Nat
  breaks : List Nat
  next : Cursor
  deriving DecidableEq, Repr

/-- The lines from one at a place on.  They start at the column `indent`. -/
def blockLines (folding : Bool) (indent : Nat) (c : Cursor) : BlockLines :=
  let line := c.rest.takeWhile fun ch => !isBreak ch
  let lineEnd := c.drop line.length
  let last := lineEnd.rest.head?.toList.map breakCode
  let breaks := breaksBelow indent lineEnd.next.column lineEnd.next.rest
  let next := lineEnd.next.drop breaks.width
  if next.column = indent ∧ 0 < next.rest.length then
    let joint :=
      if folding && last == [lineFeed] && !isInset c.rest && !isInset next.rest then
        if breaks.codes.isEmpty then [' '.toNat] else []
      else last
    let more := blockLines folding indent next
    { more with codes := codesOf line ++ joint ++ breaks.codes ++ more.codes }
  else ⟨codesOf line, last, breaks.codes, next⟩
termination_by c.rest.length
decreasing_by
  rename_i h
  have h : 0 < ((c.drop _).next.drop _).rest.length := h.2
  simp only [Cursor.length_rest_drop, Cursor.rest_next, List.length_tail] at h ⊢
  omega

/-- What is kept of the breaks at the end. -/
def keptBreaks (keep : Option Bool) (last breaks : List Nat) : List Nat :=
  match keep with
  | none => last
  | some true => last ++ breaks
  | some false => []

/-- The text of the block scalar at a place and the place after it.  Its lines start at the
column `least` or further to the right. -/
def blockAt (folding : Bool) (least : Nat) (c : Cursor) :
    Except Failure (List Nat × Cursor) := do
  let (header, width) ← headerAt ⟨none, none⟩ (c.rest.drop 1)
  let top ← (c.drop (1 + width)).lineEnd
  let (lead, indent) := match header.increment with
    | some n =>
      let indent := least + n - 1
      (breaksBelow indent top.column top.rest, indent)
    | none =>
      let (lead, deepest) := emptyLines 0 top.rest
      (lead, max least deepest)
  let start := top.drop lead.width
  if start.column = indent ∧ 0 < start.rest.length then
    let lines := blockLines folding indent start
    return (lead.codes ++ lines.codes ++ keptBreaks header.keep lines.last lines.breaks, lines.next)
  else return (keptBreaks header.keep [] lead.codes, start)

example : emptyLines 0 [' ', ' ', '\n', ' ', 'a'] = (⟨[10], 4⟩, 2) := by decide +kernel

example : (blockAt true 1 ⟨['>', '\n', ' ', 'a', '\n', ' ', 'b', '\n'], 0, 0, 0⟩).toOption.map
    Prod.fst = some (codesOf ['a', ' ', 'b', '\n']) := by
  decide +kernel

example : (headerAt ⟨none, none⟩ ['2', '-', '\n']).toOption = some (⟨some false, some 2⟩, 2) := by
  decide +kernel

end Consonance.Yaml
