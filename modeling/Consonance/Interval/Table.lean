import Consonance.Pitch.Name
import Consonance.Text.Case

/-!
# Names of intervals

Several names share a distance: a major third and a diminished fourth are both
four semitones.  Only the distance takes part in relations.

A distance is a number as it was given, and distances are compared by value.

An interval table has *long* names, made of words with hyphens between them, and
*short* names.  `distanceOf` finds a name in this order: as it is among the short
names, then in small letters and with hyphens for underscores and spaces among the
long names and the short ones.

`nameOf?` goes back from a distance to a long name.  The first word of a long name
is its quality, and the name of the best quality is chosen.  So the choice does
not depend on the order of the table as long as no two names of one distance share
a quality.
-/

namespace Consonance

open Consonance.Text

/-- Names of intervals with their distances. -/
structure IntervalTable where
  /-- The long names, in table order. -/
  named : List (String × Quantity)
  short : List (String × Quantity)
  deriving DecidableEq, Repr

namespace IntervalTable

/-- The qualities of intervals, best first. -/
def qualities : List String := ["perfect", "major", "minor", "augmented", "diminished"]

def commonNamed : List (String × Nat) :=
  [("perfect-unison", 0), ("diminished-second", 0), ("augmented-unison", 1), ("minor-second", 1),
   ("major-second", 2), ("diminished-third", 2), ("augmented-second", 3), ("minor-third", 3),
   ("major-third", 4), ("diminished-fourth", 4), ("augmented-third", 5), ("perfect-fourth", 5),
   ("augmented-fourth", 6), ("diminished-fifth", 6), ("perfect-fifth", 7), ("diminished-sixth", 7),
   ("augmented-fifth", 8), ("minor-sixth", 8), ("major-sixth", 9), ("diminished-seventh", 9),
   ("augmented-sixth", 10), ("minor-seventh", 10), ("major-seventh", 11), ("diminished-octave", 11),
   ("augmented-seventh", 12), ("perfect-octave", 12)]

/-- The short names in common use.  Capitals matter: `m3` is not `M3`. -/
def commonShort : List (String × Nat) :=
  [("unison", 0), ("tritone", 6), ("octave", 12), ("P1", 0), ("m2", 1), ("M2", 2), ("m3", 3),
   ("M3", 4), ("P4", 5), ("TT", 6), ("A4", 6), ("d5", 6), ("P5", 7), ("m6", 8), ("M6", 9),
   ("m7", 10), ("M7", 11), ("P8", 12)]

/-- Names with whole distances. -/
def withWholes (names : List (String × Nat)) : List (String × Quantity) :=
  names.map fun entry => (entry.1, .int entry.2)

/-- The table of the names in common use. -/
def common : IntervalTable := ⟨withWholes commonNamed, withWholes commonShort⟩

/-- Distances checked one after the other. -/
def checked : List (String × Value) → Except Failure (List (String × Quantity))
  | [] => .ok []
  | (name, distance) :: rest => do
    if ← distance.holds .lt (.int 0) then Failure.raise (.invalid (.negativeNamed name distance))
    match distance.quantity? with
    | some q => return (name, q) :: (← checked rest)
    | none => .error (.mistyped (.notWhole distance.kind))

/-- The table with the given names.  No distance may be negative. -/
def make (named short : List (String × Value)) : Except Failure IntervalTable := do
  let named ← checked named
  return ⟨named, ← checked short⟩

/-- The long names by distance, and in table order within one distance. -/
def names (t : IntervalTable) : List String :=
  (t.named.mergeSort fun a b => Value.orderNumbers a.2 b.2 != .gt).map Prod.fst

/-- A name in small letters, with hyphens between its words. -/
def normalize (name : String) : String :=
  (lower name).map fun c => if c = '_' ∨ c = ' ' then '-' else c

/-- The distance of a name, if the table has it. -/
def find? (t : IntervalTable) (name : String) : Option Quantity :=
  let stripped := strip name
  let normal := normalize stripped
  t.short.lookup stripped
    |>.or (t.named.lookup normal)
    |>.or (t.short.lookup normal)

def distanceOf (t : IntervalTable) (name : Value) : Except Failure Quantity :=
  match name with
  | .text s =>
    match t.find? s with
    | some distance => .ok distance
    | none => .error (.unknownInterval (.val name))
  | v => Failure.raise (.unknownInterval (.val v))

/-- The long names for a distance, in table order. -/
def namesFor (t : IntervalTable) (distance : Value) : List String :=
  (t.named.filter fun entry => (Value.ofQuantity entry.2).equal distance).map Prod.fst

/-- The first word of a long name. -/
def firstWord (name : String) : String := String.ofList (name.toList.takeWhile (· != '-'))

/-- The rank of a long name by its quality, zero for the best. -/
def rankOf (name : String) : Except Failure Nat :=
  match qualities.idxOf? (firstWord name) with
  | some rank => .ok rank
  | none => .error (.invalid .unrankedQuality)

/-- The first name of the least rank. -/
def bestOf : List (String × Nat) → Option String
  | [] => none
  | (name, rank) :: rest =>
    some (rest.foldl (fun best entry => if entry.2 < best.2 then entry else best) (name, rank)).1

/-- The long name of the best quality for a distance, if there is a name for it. -/
def nameOf? (t : IntervalTable) (distance : Value) : Except Failure (Option String) := do
  let ranked ← (t.namesFor distance).mapM fun name => return (name, ← rankOf name)
  return bestOf ranked

/-- Whether a value is a name of the table. -/
def contains (t : IntervalTable) (name : Value) : Except Failure Bool :=
  match t.distanceOf name with
  | .ok _ => .ok true
  | .error (.unknownInterval _) => .ok false
  | .error f => .error f

example : common.find? " Major Third" = some (.int 4) ∧ common.find? "m3" = some (.int 3) := by
  decide +kernel

end IntervalTable

/-! ## Distances as arguments -/

/-- The name of an interval in the common table. -/
def Interval.name? (i : Interval) : Option String :=
  match IntervalTable.common.nameOf? (.ofQuantity i.semitones) with
  | .ok name => name
  | .error _ => none

/-- The interval of a number of semitones. -/
def Interval.ofValue (v : Value) : Except Failure Interval := do
  if ← v.holds .lt (.int 0) then Failure.raise (.invalid (.negativeDistance v))
  match v.quantity? with
  | some q => return ⟨q⟩
  | none => .error (.mistyped (.notWhole v.kind))

/-- The distance that an interval argument stands for: an interval, a name or a
whole number that is no truth value and not negative. -/
def resolveDistance (v : Value) : Except Failure Value :=
  match v with
  | .interval i => .ok (.ofQuantity i.semitones)
  | .text _ => do return .ofQuantity (← IntervalTable.common.distanceOf v)
  | .int n => if n < 0 then Failure.raise (.invalid (.negativeDistance v)) else .ok v
  | .pitchClass _ => .ok v
  | v => Failure.raise (.unknownInterval (.val v))

end Consonance
