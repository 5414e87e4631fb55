import Consonance.Yaml.Block
import Consonance.Yaml.Plain
import Consonance.Yaml.Token

/-!
# From a text to its tokens

Columns and colons matter to the tokens.  In block style a dash or a key further to the right
than the collection around it starts a new collection, and a line further to the left ends
it.  A key is only known as such when its colon comes.  So the places where a key may have
started are remembered as *candidates*, and the tokens from the first candidate on are held
back.  A candidate becomes *stale* at the end of its line, and after 1024 characters.  One
that stands at the column of its collection must become a key.

A `Layout` holds what is known at a place.  `Layout.fetch` reads one token, and `tokensOf`
reads them all.  If the text has a fault, the tokens that are free before it are still
given, since a document may fail on one of them.
-/

namespace Consonance.Yaml

/-- A place where a key may have started. -/
structure Candidate where
  level : Nat
  number : Nat
  /-- Whether it must become a key. -/
  required : Bool
  place : Cursor
  deriving Repr

/-- What is known at a place between tokens. -/
structure Layout where
  place : Cursor
  level : Nat := 0
  /-- The columns of the block collections around it, the innermost first. -/
  margins : List Nat := []
  /-- Whether a key may start here. -/
  keyAllowed : Bool := true
  /-- The places where a key may have started. -/
  candidates : List Candidate := []
  held : List Token := []
  given : Nat := 0
  /-- Whether the text is at its end. -/
  finished : Bool := false
  deriving Repr

namespace Layout

def inFlow (l : Layout) : Bool := l.level != 0

/-- The first column that is further to the right than the innermost block collection. -/
def least (l : Layout) : Nat :=
  match l.margins with
  | [] => 0
  | column :: _ => column + 1

/-- Adds a token. -/
def add (t : Token) (l : Layout) : Layout := { l with held := l.held ++ [t] }

/-- Adds a token and goes on to a place. -/
def addTo (t : Token) (place : Cursor) (l : Layout) : Layout :=
  { l with held := l.held ++ [t], place }

/-- Says whether a key may start here. -/
def allowKey (allowed : Bool) (l : Layout) : Layout := { l with keyAllowed := allowed }

/-! ## Candidates -/

/-- The most characters from the start of a key to its colon. -/
def keyLength : Nat := 1024

/-- Whether a candidate can no longer become a key. -/
def isStale (l : Layout) (c : Candidate) : Bool :=
  c.place.line != l.place.line || decide (keyLength < l.place.index - c.place.index)

/-- Gives up the candidates with a property.  None of them may be required. -/
def giveUp (p : Candidate → Bool) (l : Layout) : Except Failure Layout :=
  if l.candidates.any fun c => p c && c.required then malformed
  else .ok { l with candidates := l.candidates.filter fun c => !p c }

/-- Gives up the stale candidates. -/
def giveUpStale (l : Layout) : Except Failure Layout := l.giveUp l.isStale

/-- Gives up the candidate between the present brackets. -/
def giveUpHere (l : Layout) : Except Failure Layout := l.giveUp fun c => c.level == l.level

/-- Remembers the place as one where a key may start, if one may. -/
def markKey (l : Layout) : Except Failure Layout :=
  if l.keyAllowed then do
    let l ← l.giveUpHere
    let required := !l.inFlow && l.margins.head? == some l.place.column
    let c : Candidate := ⟨l.level, l.given + l.held.length, required, l.place⟩
    return { l with candidates := c :: l.candidates }
  else .ok l

/-! ## Block collections -/

/-- Ends the block collections that a property of their columns says. -/
def close (p : Nat → Bool) (l : Layout) : Layout :=
  if l.inFlow then l
  else
    let closed := l.margins.takeWhile p
    { l with
      margins := l.margins.drop closed.length
      held := l.held ++ closed.map fun _ => .blockEnd }

/-- Starts a block collection at a column, if that is further to the right than the one
around it.  Its token comes before the last `back` tokens. -/
def openAt (column : Nat) (t : Token) (back : Nat) (l : Layout) : Layout :=
  if l.least ≤ column then
    let front := l.held.length - back
    { l with
      margins := column :: l.margins
      held := l.held.take front ++ t :: l.held.drop front }
  else l

/-! ## Single tokens -/

/-- The end of the text. -/
def fetchFinish (l : Layout) : Except Failure Layout := do
  let l ← (l.close fun _ => true).giveUpHere
  return { (l.add .finish).allowKey false with candidates := [], finished := true }

/-- A token between documents. -/
def fetchBetween (t : Token) (next : Cursor) (l : Layout) : Except Failure Layout := do
  let l ← (l.close fun _ => true).giveUpHere
  return (l.allowKey false).addTo t next

/-- A directive. -/
def fetchDirective (l : Layout) : Except Failure Layout := do
  let l ← (l.close fun _ => true).giveUpHere
  let (directive, next) ← directiveAt l.place
  return (l.allowKey false).addTo (.directive directive) next

/-- An opening bracket. -/
def fetchOpening (t : Token) (l : Layout) : Except Failure Layout := do
  let l ← l.markKey
  return ({ l with level := l.level + 1 }.allowKey true).addTo t l.place.next

/-- A closing bracket. -/
def fetchClosing (t : Token) (l : Layout) : Except Failure Layout := do
  let l ← l.giveUpHere
  return ({ l with level := l.level - 1 }.allowKey false).addTo t l.place.next

/-- A comma. -/
def fetchComma (l : Layout) : Except Failure Layout := do
  let l ← l.giveUpHere
  return (l.allowKey true).addTo .comma l.place.next

/-- Starts a block collection at the place of a dash, a question mark or a colon.  They may
only stand where a key may. -/
def openHere (collection : Token) (l : Layout) : Except Failure Layout :=
  if l.inFlow then .ok l
  else if l.keyAllowed then .ok (l.openAt l.place.column collection 0)
  else malformed

/-- A dash. -/
def fetchDash (l : Layout) : Except Failure Layout := do
  let l ← (← l.openHere .blockSequence).giveUpHere
  return (l.allowKey true).addTo .dash l.place.next

/-- A question mark. -/
def fetchKey (l : Layout) : Except Failure Layout := do
  let l ← (← l.openHere .blockMapping).giveUpHere
  return (l.allowKey !l.inFlow).addTo .key l.place.next

/-- A colon.  If there is a candidate, it becomes a key. -/
def fetchValue (l : Layout) : Except Failure Layout :=
  match l.candidates.find? fun c => c.level == l.level with
  | some c => do
    let back := l.held.length - (c.number - l.given)
    let front := l.held.length - back
    let l := { l with
      candidates := l.candidates.filter fun c => c.level != l.level
      held := l.held.take front ++ Token.key :: l.held.drop front }
    let l := if l.inFlow then l else l.openAt c.place.column .blockMapping (back + 1)
    return (l.allowKey false).addTo .value l.place.next
  | none => do
    let l ← (← l.openHere .blockMapping).giveUpHere
    return (l.allowKey !l.inFlow).addTo .value l.place.next

/-- A token that may be a key or stand in front of one: its outcome and how wide it is. -/
def fetchNamed (outcome : Except Failure (Token × Nat)) (l : Layout) : Except Failure Layout := do
  let l ← l.markKey
  let (t, width) ← outcome
  return (l.allowKey false).addTo t (l.place.drop width)

/-- A reference or an anchor. -/
def fetchName (make : String → Token) (l : Layout) : Except Failure Layout :=
  let outcome := do
    let (name, width) ← anchorNameAt (l.place.rest.drop 1)
    return (make name, width + 1)
  l.fetchNamed outcome

/-- A tag. -/
def fetchTag (l : Layout) : Except Failure Layout :=
  let outcome := do
    let (tag, width) ← tagAt l.place.rest
    return (.tag tag, width)
  l.fetchNamed outcome

/-- A quoted scalar. -/
def fetchQuoted (quote : Char) (l : Layout) : Except Failure Layout := do
  let l ← l.markKey
  let (codes, next) ← quotedAt quote l.place
  return (l.allowKey false).addTo (.scalar codes false) next

/-- A block scalar. -/
def fetchBlock (folding : Bool) (l : Layout) : Except Failure Layout := do
  let l ← l.giveUpHere
  let (codes, next) ← blockAt folding (max 1 l.least) l.place
  return (l.allowKey true).addTo (.scalar codes false) next

/-- A plain scalar. -/
def fetchPlain (l : Layout) : Except Failure Layout := do
  let l ← l.markKey
  let plain := plainAt l.inFlow l.least l.place
  return (l.allowKey plain.crossed).addTo (.scalar plain.codes true) plain.next

/-! ## All tokens -/

/-- The token at a place that is not at the end of the text. -/
def fetchAt (c : Char) (rest : List Char) (l : Layout) : Except Failure Layout :=
  let text := c :: rest
  if l.place.column = 0 ∧ c = '%' then l.fetchDirective
  else if l.place.column = 0 ∧ startsMarker '-' text then
    l.fetchBetween .documentStart (l.place.drop 3)
  else if l.place.column = 0 ∧ startsMarker '.' text then
    l.fetchBetween .documentEnd (l.place.drop 3)
  else
    match c with
    | '[' => l.fetchOpening .flowSequence
    | '\x7b' => l.fetchOpening .flowMapping
    | ']' => l.fetchClosing .flowSequenceEnd
    | '\x7d' => l.fetchClosing .flowMappingEnd
    | ',' => l.fetchComma
    | '*' => l.fetchName .reference
    | '&' => l.fetchName .anchor
    | '!' => l.fetchTag
    | '\'' => l.fetchQuoted c
    | '"' => l.fetchQuoted c
    | _ =>
      if c = '-' ∧ startsBlank rest then l.fetchDash
      else if c = '?' ∧ (l.inFlow ∨ startsBlank rest) then l.fetchKey
      else if c = ':' ∧ (l.inFlow ∨ startsBlank rest) then l.fetchValue
      else if c = '|' ∧ !l.inFlow then l.fetchBlock false
      else if c = '>' ∧ !l.inFlow then l.fetchBlock true
      else if startsPlain l.inFlow text then l.fetchPlain
      else malformed

/-- Reads the next token. -/
def fetch (l : Layout) : Except Failure Layout := do
  let (place, crossed) := l.place.toToken
  let l := { l with place, keyAllowed := l.keyAllowed || (crossed && !l.inFlow) }
  let l ← l.giveUpStale
  let l := l.close fun column => decide (place.column < column)
  match place.rest with
  | [] => l.fetchFinish
  | c :: rest => l.fetchAt c rest

/-- The tokens before the first candidate. -/
def free (l : Layout) : List Token :=
  match (l.candidates.map Candidate.number).min? with
  | some n => l.held.take (n - l.given)
  | none => l.held

/-- The layout without the tokens before the first candidate. -/
def release (l : Layout) : Layout :=
  let n := l.free.length
  { l with held := l.held.drop n, given := l.given + n }

end Layout

/-- The tokens of a text. -/
structure Tokens where
  tokens : List Token
  /-- What fails if more of them are asked for. -/
  fault : Failure

/-- The tokens from a layout on, after some earlier ones, the latest first. -/
def tokensFrom (earlier : List Token) (l : Layout) : (steps : Nat) → Tokens
  | 0 => ⟨earlier.reverse, .malformedDocument⟩
  | steps + 1 =>
    match l.giveUpStale with
    | .error e => ⟨earlier.reverse, e⟩
    | .ok l =>
      let earlier := l.free.reverse ++ earlier
      if l.finished then ⟨earlier.reverse, .malformedDocument⟩
      else
        match l.release.fetch with
        | .error e => ⟨earlier.reverse, e⟩
        | .ok l => tokensFrom earlier l steps

/-- The tokens of a text.  Every token but the last takes some of it. -/
def tokensOf (cs : List Char) : Tokens :=
  let start : Cursor := { rest := cs }
  tokensFrom [] { place := start } (cs.length + 2)

example : (tokensOf "a: 1".toList).tokens =
    [.blockMapping, .key, .scalar [97] true, .value, .scalar [49] true, .blockEnd, .finish] := by
  decide +kernel

end Consonance.Yaml
