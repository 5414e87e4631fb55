import Consonance.Fraction
import Consonance.Pitch.Space

/-!
# Notes

A note is a pitch class in an octave that sounds for a part of a whole note with
some strength.  Its key number is its absolute pitch in a pitch space.
-/

namespace Consonance

/-- A note. -/
structure Note where
  pitch : PitchClass
  octave : Value
  /-- The part of a whole note that it lasts. -/
  duration : Fraction
  velocity : Value

namespace Note

def quarter : Fraction := ⟨1, 4⟩

/-- The note with the given parts.  The velocity is checked first. -/
def make (pitch : PitchClass) (octave : Value) (duration : Fraction) (velocity : Value) :
    Except Failure Note := do
  if !(← velocity.within 0 127) then Failure.raise (.invalid (.velocityRange velocity))
  if duration.num ≤ 0 then Failure.raise (.invalid (.durationSign duration.num duration.den))
  return ⟨pitch, octave, duration, velocity⟩

def ofKeyNumber (space : PitchSpace) (key : Value) (duration : Fraction) (velocity : Value) :
    Except Failure Note := do
  let (pitch, octave) ← space.describe key
  make pitch (.int octave) duration velocity

def keyNumber (space : PitchSpace) (n : Note) : Except Failure Int :=
  space.absolute n.pitch n.octave

/-- The text of a note: its class and octave. -/
def text (n : Note) : String := n.pitch.name ++ n.octave.plain

end Note

end Consonance
