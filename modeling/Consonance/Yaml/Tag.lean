import Consonance.Yaml.Cursor

/-!
# Tags

A tag says what kind of datum a node is.  It is written in full between angle brackets, or
as a handle and a suffix.  A *handle* is an exclamation mark, or two with a name between
them.  It stands for a stem, which a directive may give.  A percent sign in a suffix starts
the number of a byte, and the bytes encode characters.

The exclamation mark alone is the tag of a node whose kind follows from its form.
-/

namespace Consonance.Yaml

open Consonance.Text

/-- The kind of a node. -/
inductive Tag where
  | null
  | bool
  | int
  | float
  | binary
  /-- A day, or a time on a day. -/
  | timestamp
  | str
  | seq
  | map
  | set
  /-- A list of pairs, one for each key. -/
  | omap
  | pairs
  /-- The key of mappings whose entries count as those of the mapping that it stands in. -/
  | merge
  /-- The key of the scalar that a mapping may stand for. -/
  | value
  /-- Any other kind.  No node of it can be read. -/
  | unknown
  deriving DecidableEq, Repr

namespace Tag

/-- The stem of the tags that every document knows. -/
def stem : String := "tag:yaml.org,2002:"

def names : List (String × Tag) :=
  [("null", .null), ("bool", .bool), ("int", .int), ("float", .float), ("binary", .binary),
   ("timestamp", .timestamp), ("str", .str), ("seq", .seq), ("map", .map), ("set", .set),
   ("omap", .omap), ("pairs", .pairs), ("merge", .merge), ("value", .value)]

def ofName (s : String) : Tag :=
  ((names.find? fun entry => stem ++ entry.1 == s).map Prod.snd).getD .unknown

end Tag

/-! ## Written tags -/

/-- Whether a character may stand in the name of a handle, an anchor or a directive. -/
def isNameChar (c : Char) : Bool := c.isAlphanum || c == '-' || c == '_'

/-- Whether a character may stand in a suffix. -/
def isSuffixChar (c : Char) : Bool := c.isAlphanum || "-;/?:@&=+$,_.!~*'()[]%".toList.contains c

/-- The bytes that a suffix stands for. -/
def suffixBytes : List Char → Option (List UInt8)
  | [] => some []
  | '%' :: a :: b :: rest => do
    let high ← hexValue? a
    let low ← hexValue? b
    return (16 * high + low).toUInt8 :: (← suffixBytes rest)
  | c :: rest => if c = '%' then none else do return c.toNat.toUInt8 :: (← suffixBytes rest)

/-- The suffix at a place and its width. -/
def suffixAt (cs : List Char) : Except Failure (String × Nat) :=
  let chars := cs.takeWhile isSuffixChar
  match (suffixBytes chars).bind fun bytes => String.fromUTF8? ⟨bytes.toArray⟩ with
  | some s => if chars.isEmpty then malformed else .ok (s, chars.length)
  | none => malformed

/-- The handle at a place and its width. -/
def handleAt : List Char → Except Failure (String × Nat)
  | '!' :: rest =>
    let name := rest.takeWhile isNameChar
    if rest.head? = some ' ' then .ok ("!", 1)
    else if (rest.drop name.length).head? = some '!' then
      .ok (String.ofList ('!' :: (name ++ ['!'])), name.length + 2)
    else malformed
  | _ => malformed

/-- A tag as it is written. -/
structure WrittenTag where
  /-- The handle, unless the tag is written in full. -/
  handle : Option String
  suffix : String
  deriving DecidableEq, Repr

/-- The tag at a place and its width.  The place is that of an exclamation mark. -/
def tagAt (cs : List Char) : Except Failure (WrittenTag × Nat) := do
  let after := cs.drop 1
  let (tag, width) ←
    if after.head? = some '<' then do
      let (suffix, n) ← suffixAt (cs.drop 2)
      if (cs.drop (2 + n)).head? = some '>' then pure (⟨none, suffix⟩, n + 3) else malformed
    else if startsBlank after then pure (⟨none, "!"⟩, 1)
    else do
      let word := after.takeWhile fun c => !startsSpace [c]
      let (handle, m) ← if word.contains '!' then handleAt cs else pure ("!", 1)
      let (suffix, n) ← suffixAt (cs.drop m)
      pure (⟨some handle, suffix⟩, m + n)
  if startsSpace (cs.drop width) then return (tag, width) else malformed

abbrev Handles := List (String × String)

/-- The stems of the two handles that need no directive. -/
def Handles.standard : Handles := [("!", "!"), ("!!", Tag.stem)]

def WrittenTag.fullName (handles : Handles) (t : WrittenTag) : Except Failure String :=
  match t.handle with
  | none => .ok t.suffix
  | some handle =>
    match handles.lookup handle with
    | some stem => .ok (stem ++ t.suffix)
    | none => malformed

example : (tagAt "!!str x".toList).toOption = some (⟨some "!!", "str"⟩, 5) := by decide +kernel

example : (tagAt "! x".toList).toOption = some (⟨none, "!"⟩, 1) := by decide +kernel

/-! ## Directives -/

/-- A line in front of a document that says how to read it. -/
inductive Directive where
  | version (major : Nat)
  /-- The stem that a handle stands for. -/
  | handle (name stem : String)
  /-- Any other directive.  Nothing becomes of it. -/
  | other
  deriving DecidableEq, Repr

/-- The decimal number at a place and its width. -/
def numberAt (cs : List Char) : Except Failure (Nat × Nat) :=
  let digits := cs.takeWhile Char.isDigit
  if digits.isEmpty then malformed
  else if Number.digitLimit < digits.length then .error (.invalid (.tooManyDigits digits.length))
  else .ok (Number.ofDigits (digits.filterMap decimalValue?), digits.length)

/-- The version at a place and the place after it. -/
def versionAt (c : Cursor) : Except Failure (Directive × Cursor) := do
  let c := c.dropWhile (· == ' ')
  let (major, m) ← numberAt c.rest
  if (c.rest.drop m).head? ≠ some '.' then malformed
  else
    let (_, n) ← numberAt (c.rest.drop (m + 1))
    let c := c.drop (m + 1 + n)
    if startsSpace c.rest then return (.version major, c) else malformed

/-- The handle and its stem at a place, and the place after them. -/
def handleStemAt (c : Cursor) : Except Failure (Directive × Cursor) := do
  let c := c.dropWhile (· == ' ')
  let (name, m) ← handleAt c.rest
  let c := c.drop m
  if c.rest.head? ≠ some ' ' then malformed
  else
    let c := c.dropWhile (· == ' ')
    let (stem, n) ← suffixAt c.rest
    let c := c.drop n
    if startsSpace c.rest then return (.handle name stem, c) else malformed

/-- The directive at a place and the place after its line.  The place is that of a percent
sign. -/
def directiveAt (c : Cursor) : Except Failure (Directive × Cursor) := do
  let c := c.next
  let name := c.rest.takeWhile isNameChar
  let c := c.drop name.length
  if name.isEmpty || !startsSpace c.rest then malformed
  else
    let (directive, c) ←
      if name = ['Y', 'A', 'M', 'L'] then versionAt c
      else if name = ['T', 'A', 'G'] then handleStemAt c
      else pure (.other, c.dropWhile fun ch => !isBreak ch)
    return (directive, ← c.lineEnd)

/-! ## Anchors -/

/-- The name of an anchor at a place and its width. -/
def anchorNameAt (cs : List Char) : Except Failure (String × Nat) :=
  let name := cs.takeWhile isNameChar
  let after := cs.drop name.length
  let ends := startsBlank after || after.head?.any "?:,]\x7d%@\x60".toList.contains
  if name.isEmpty || !ends then malformed else .ok (String.ofList name, name.length)

end Consonance.Yaml
