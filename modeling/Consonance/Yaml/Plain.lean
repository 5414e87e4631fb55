import Consonance.Yaml.Quoted

/-!
# Plain scalars

A plain scalar is a run of words without quotes.  It starts with a character that has no
meaning of its own.  A word ends at a blank, at a break, and at a colon with a blank after
it.  Inside brackets it also ends at a comma, a bracket or a question mark.

The words may stand on several lines.  In block style the lines must be further to the right
than the collection around the scalar.  A comment ends the scalar, and so does a line that
separates documents.

`length_pos_of_wordLength` makes the recursion over the words end.
-/

namespace Consonance.Yaml

/-- The brackets and the comma of flow style. -/
def isFlowMark (c : Char) : Bool := c == ',' || c == '[' || c == ']' || c == '\x7b' || c == '\x7d'

/-- The characters with a meaning of their own at the start of a token. -/
def marks : List Char :=
  ['-', '?', ':', ',', '[', ']', '\x7b', '\x7d', '#', '&', '*', '!', '|', '>', '\'', '"', '%', '@',
   '\x60']

/-- Whether a plain scalar can start at a place.  `flow` says that the place is inside
brackets. -/
def startsPlain (flow : Bool) : List Char → Bool
  | [] => false
  | c :: rest =>
    if marks.contains c then
      !startsBlank rest && (c == '-' || (!flow && (c == '?' || c == ':')))
    else !(isBlank c || isBreak c)

/-- Whether a character, with some text after it, ends a word. -/
def endsWord (flow : Bool) (c : Char) (rest : List Char) : Bool :=
  isBlank c || isBreak c || (flow && (c == '?' || isFlowMark c)) ||
    (c == ':' && (startsBlank rest || (flow && rest.head?.any isFlowMark)))

/-- The number of characters of the word in front. -/
def wordLength (flow : Bool) : List Char → Nat
  | [] => 0
  | c :: rest => if endsWord flow c rest then 0 else wordLength flow rest + 1

theorem length_pos_of_wordLength {flow : Bool} {cs : List Char} (h : 0 < wordLength flow cs) :
    0 < cs.length := by
  cases cs with
  | nil => simp [wordLength] at h
  | cons c rest => simp

/-- What stands between two words. -/
structure Gap where
  /-- What becomes of it if another word follows. -/
  codes : List Nat
  width : Nat
  /-- Whether there is a break in it. -/
  crossed : Bool
  /-- Whether it ends at a line that separates documents. -/
  separated : Bool
  deriving DecidableEq, Repr

/-- The rest of a gap after its first break.  `fresh` says that the place is at the start of
a line. -/
def linesAt (fresh : Bool) : List Char → Gap
  | [] => ⟨[], 0, true, false⟩
  | c :: rest =>
    if fresh && startsSeparator (c :: rest) then ⟨[], 0, true, true⟩
    else if c = ' ' then
      let more := linesAt false rest
      { more with width := more.width + 1 }
    else if isBreak c then
      let more := linesAt true rest
      { more with codes := breakCode c :: more.codes, width := more.width + 1 }
    else ⟨[], 0, true, false⟩

/-- The gap at the end of a word. -/
def gapAt (cs : List Char) : Gap :=
  let spaces := cs.takeWhile (· == ' ')
  match cs.drop spaces.length with
  | [] => ⟨codesOf spaces, spaces.length, false, false⟩
  | c :: rest =>
    if isBreak c then
      let more := linesAt true rest
      { more with
        codes := folded (breakCode c) more.codes
        width := spaces.length + 1 + more.width }
    else ⟨codesOf spaces, spaces.length, false, false⟩

/-- A plain scalar that has been read. -/
structure PlainText where
  codes : List Nat
  /-- The place after it and the gap after its last word. -/
  next : Cursor
  /-- Whether there is a break in that gap. -/
  crossed : Bool
  deriving DecidableEq, Repr

/-- Whether a plain scalar goes on with another word after a gap.  Its lines have to reach
the column `least`. -/
def goesOn (flow : Bool) (least : Nat) (gap : Gap) (next : Cursor) : Bool :=
  !gap.separated && gap.width != 0 && next.rest.head? != some '#' &&
    (flow || decide (least ≤ next.column)) && decide (0 < wordLength flow next.rest)

def plainAt (flow : Bool) (least : Nat) (c : Cursor) : PlainText :=
  let width := wordLength flow c.rest
  let word := codesOf (c.rest.take width)
  let gap := gapAt (c.drop width).rest
  let next := c.drop (width + gap.width)
  if 0 < width ∧ goesOn flow least gap next then
    let more := plainAt flow least next
    { more with codes := word ++ gap.codes ++ more.codes }
  else ⟨word, next, gap.crossed⟩
termination_by c.rest.length
decreasing_by
  rename_i h
  have := h.1
  have := length_pos_of_wordLength h.1
  simp only [Cursor.length_rest_drop]
  omega

example : (plainAt false 1 ⟨['a', '\n', ' ', ' ', 'b', ':', ' ', '3'], 0, 0, 0⟩).codes =
    codesOf ['a', ' ', 'b'] := by
  decide +kernel

example : (plainAt true 0 ⟨['a', ',', ' ', 'b'], 0, 0, 0⟩).codes = codesOf ['a'] := by
  decide +kernel

end Consonance.Yaml
