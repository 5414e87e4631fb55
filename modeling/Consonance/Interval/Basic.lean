import Consonance.Value.Quantity

/-!
# Intervals

An interval is a distance between two pitches, counted in semitones.  It has no
direction.  Its size is a number as it was given, and may even have a fraction.

The short text of an interval names the part within the octave and, beyond the octave, how
many octaves are added.  The octave itself is `P8`.  An interval that is no whole number of
semitones has no short text.
-/

namespace Consonance

/-- A distance in semitones. -/
structure Interval where
  semitones : Quantity
  deriving DecidableEq, Repr

namespace Interval

/-- The interval of a whole number of semitones. -/
def ofNat (n : Nat) : Interval := ⟨.int n⟩

/-- The short name of an interval smaller than the octave. -/
def shortName (semitones : Fin 12) : String :=
  match semitones with
  | 0 => "P1"
  | 1 => "m2"
  | 2 => "M2"
  | 3 => "m3"
  | 4 => "M3"
  | 5 => "P4"
  | 6 => "TT"
  | 7 => "P5"
  | 8 => "m6"
  | 9 => "M6"
  | 10 => "m7"
  | 11 => "M7"

/-- The part of an interval within the octave. -/
def residue (i : Interval) : Quantity := i.semitones.mod 12

/-- The number of whole octaves in an interval. -/
def octaves (i : Interval) : Quantity := i.semitones.floorDiv 12

/-- Twelve classes of sizes are enough. -/
theorem toNat_emod_lt (n : Int) : (n % 12).toNat < 12 := by omega

/-- The short text of an interval, if it has one. -/
def text? (i : Interval) : Option String :=
  if i.semitones.equal (.int 12) then some "P8"
  else
    i.residue.integer?.map fun n =>
      let base := shortName ⟨(n % 12).toNat, toNat_emod_lt n⟩
      if i.octaves.equal (.int 0) then base else base ++ "+" ++ i.octaves.plain ++ "oct"

/-- The interval that completes this one to an octave, within the octave. -/
def invert (i : Interval) : Interval := ⟨(i.residue.takenFrom 12).mod 12⟩

/-- Two intervals are equal when their sizes are. -/
def equal (i j : Interval) : Bool := i.semitones.equal j.semitones

example : text? (ofNat 4) = some "M3" ∧ text? (ofNat 12) = some "P8" ∧
    text? (ofNat 19) = some "P5+1oct" := by
  decide +kernel

end Interval

end Consonance
