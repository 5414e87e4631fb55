import Consonance.Pitch.Space

/-!
# Names of pitches

A pitch class is given by a name, and an absolute pitch by a number or by the name
of a note: a class name and an octave, as in `C4`, `Eb3` or `C#-1`.

A note name is a letter from `A` to `G` in either case, any run of the accidentals
`#`, `b`, `s` and `f`, and an octave of an optional minus and decimal digits.
Blanks may stand around it and before the octave.  `NoteName.split` takes a text
apart along this grammar, and `NoteName.read` looks the pieces up.
-/

namespace Consonance

open Consonance.Text

namespace PitchClass

def ofValue : Value → Except Failure PitchClass
  | .pitchClass c => .ok c
  | .text s =>
    let name := strip s
    match ofName? name with
    | some c => .ok c
    | none => .error (.unknownPitchClass (.val (.text name)))
  | v => Failure.raise (.unknownPitchClass (.val v))

/-- The class whose number a value is. -/
def ofNumber (v : Value) : Except Failure PitchClass :=
  match (v.quantity?.bind Quantity.integer?).bind ofNumber? with
  | some c => .ok c
  | none => Failure.raise (.invalid (.pitchClassNumber v))

/-- The class a number of semitones away, for any number that leads to a class. -/
def transposeBy (c : PitchClass) (semitones : Value) : Except Failure PitchClass := do
  ofNumber (← (← Value.add (.int c.toInt) semitones).mod (.int 12))

end PitchClass

/-- The pieces of a note name. -/
structure NoteName where
  letter : Char
  accidentals : List Char
  /-- Whether the octave is negative. -/
  negative : Bool
  digits : List Char
  deriving DecidableEq, Repr

namespace NoteName

/-- Whether a character is one of the letters of the scale. -/
def isLetter (c : Char) : Bool := ('A' ≤ c && c ≤ 'G') || ('a' ≤ c && c ≤ 'g')

def isAccidental (c : Char) : Bool := c == '#' || c == 'b' || c == 's' || c == 'f'

/-- Splits off a minus. -/
def takeMinus : List Char → Bool × List Char
  | '-' :: rest => (true, rest)
  | cs => (false, cs)

/-- Takes a text apart as a note name. -/
def split (cs : List Char) : Option NoteName :=
  match cs.dropWhile isBlank with
  | [] => none
  | letter :: rest =>
    if isLetter letter then
      let (negative, number) := takeMinus ((rest.dropWhile isAccidental).dropWhile isBlank)
      let digits := number.takeWhile isDecimal
      if !digits.isEmpty && (number.dropWhile isDecimal).all isBlank then
        some ⟨letter.toUpper, rest.takeWhile isAccidental, negative, digits⟩
      else none
    else none

def className (n : NoteName) : String := String.ofList (n.letter :: n.accidentals)

def octave (n : NoteName) : Except Failure Int :=
  if Number.digitLimit < n.digits.length then .error (.invalid (.tooManyDigits n.digits.length))
  else
    let magnitude : Int := Number.ofDigits (n.digits.filterMap decimalValue?)
    .ok (if n.negative then -magnitude else magnitude)

/-- The class and the octave that a text names. -/
def read (s : String) : Except Failure (PitchClass × Int) :=
  match split s.toList with
  | none => .error (.unknownPitchClass (.val (.text s)))
  | some n => do
    let c ← PitchClass.ofValue (.text n.className)
    return (c, ← n.octave)

example : split ['e', 'b', ' ', '-', '1'] = some ⟨'E', ['b'], true, ['1']⟩ := by decide +kernel

example : split ['C', '4', 'x'] = none := by decide +kernel

end NoteName

/-! ## Pitch arguments -/

/-- Whether a text is written like a number: digits after any number of minus signs. -/
def isNumeral (cs : List Char) : Bool :=
  let digits := cs.dropWhile (· == '-')
  !digits.isEmpty && digits.all isDigitLike

/-- The absolute pitch that a pitch argument stands for.  Whole numbers stand for
themselves, except the truth values.  Everything else is read as a number or as a
note name. -/
def resolvePitch (v : Value) : Except Failure Value :=
  match v with
  | .truth _ => .error (.invalid (.pitchArgument v))
  | .int _ | .pitchClass _ => .ok v
  | v => do
    let text := strip (← v.requirePlain)
    if isNumeral text.toList then return .int (← Value.integerOfText text)
    let (c, octave) ← NoteName.read text
    return .int (c.toInt + 12 * (octave + 1))

end Consonance
