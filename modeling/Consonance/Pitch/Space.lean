import Consonance.Value.Arithmetic

/-!
# Pitch spaces

Absolute pitches are numbered in semitones as in MIDI, where 60 is the `C` of
octave 4.  A *pitch space* is a closed range of absolute pitches.  Every pitch
that a query derives lies in its space.

`PitchSpace.absolute` goes from a class and an octave to an absolute pitch, and
`PitchSpace.describe` goes back.  Both refuse a pitch outside the space.
-/

namespace Consonance

def octaveOf (pitch : Int) : Int := Int.fdiv pitch 12 - 1

def octaveOfValue (pitch : Value) : Except Failure Value := do
  (← pitch.floorDiv (.int 12)).sub (.int 1)

@[simp] theorem octaveOfValue_int (n : Int) :
    octaveOfValue (.int n) = .ok (.int (octaveOf n)) := rfl

/-- A closed range of absolute pitches. -/
structure PitchSpace where
  lowest : Int
  highest : Int
  ordered : lowest ≤ highest
  deriving DecidableEq, Repr

namespace PitchSpace

def make (lowest highest : Int) : Except Failure PitchSpace :=
  if h : lowest ≤ highest then .ok ⟨lowest, highest, h⟩
  else Failure.raise (.invalid (.spaceOrder (.int lowest) (.int highest)))

/-- The space whose ends are two whole numbers.  Their order is looked at first. -/
def ofValues (lowest highest : Value) : Except Failure PitchSpace := do
  if ← lowest.holds .gt highest then
    Failure.raise (.invalid (.spaceOrder lowest highest))
  match lowest.whole?, highest.whole? with
  | some lo, some hi => make lo hi
  | none, _ => .error (.mistyped (.notWhole lowest.kind))
  | _, none => .error (.mistyped (.notWhole highest.kind))

def midi : PitchSpace := ⟨0, 127, by decide⟩

/-- The range of the piano, from the lowest `A` to the highest `C`. -/
def piano : PitchSpace := ⟨21, 108, by decide⟩

instance : Inhabited PitchSpace := ⟨midi⟩

/-- The greatest distance of two pitches in the space. -/
def span (s : PitchSpace) : Int := s.highest - s.lowest

/-- The integers from one end to the other, both included. -/
def run (first last : Int) : List Int :=
  (List.range (last - first + 1).toNat).map fun (k : Nat) => first + k

/-- The octaves that the space touches, ascending. -/
def octaves (s : PitchSpace) : List Int := run (octaveOf s.lowest) (octaveOf s.highest)

def pitches (s : PitchSpace) : List Int := run s.lowest s.highest

/-- Whether an integer lies in the space. -/
def admits (s : PitchSpace) (pitch : Int) : Bool := s.lowest ≤ pitch && pitch ≤ s.highest

/-- Whether a value is a whole number in the space. -/
def contains (s : PitchSpace) (v : Value) : Bool :=
  match v.whole? with
  | some n => s.admits n
  | none => false

/-- A value as an absolute pitch of the space. -/
def require (s : PitchSpace) (v : Value) : Except Failure Int :=
  match v.whole? with
  | some n =>
    if s.admits n then .ok n else Failure.raise (.deadEnd (.outsideSpace v s.lowest s.highest))
  | none => Failure.raise (.deadEnd (.outsideSpace v s.lowest s.highest))

/-- The absolute pitch of a class in an octave. -/
def absolute (s : PitchSpace) (c : PitchClass) (octave : Value) : Except Failure Int := do
  let above ← octave.add (.int 1)
  let base ← Value.mul (.int 12) above
  s.require (← Value.add (.int c.toInt) base)

/-- The class and the octave of an absolute pitch. -/
def describe (s : PitchSpace) (pitch : Value) : Except Failure (PitchClass × Int) := do
  let n ← s.require pitch
  return (.ofInt n, octaveOf n)

theorem mem_run {first last n : Int} : n ∈ run first last ↔ first ≤ n ∧ n ≤ last := by
  simp only [run, List.mem_map, List.mem_range]
  constructor
  · rintro ⟨k, hk, rfl⟩
    omega
  · rintro ⟨h₁, h₂⟩
    exact ⟨(n - first).toNat, by omega, by omega⟩

theorem mem_pitches {s : PitchSpace} {n : Int} : n ∈ s.pitches ↔ s.lowest ≤ n ∧ n ≤ s.highest :=
  mem_run

example : midi.octaves = [-1, 0, 1, 2, 3, 4, 5, 6, 7, 8, 9] := by decide +kernel

end PitchSpace

end Consonance
