import Consonance.Interval.Table

/-!
# Chord qualities and voicings

A chord quality is a stack of intervals measured from the root.  A triad has
three: unison, a third and a fifth of some size.  Rotating them gives its three
closed voicings: the root lies in the bass, on top or in the middle.

`ChordQuality.make` admits any stack within an octave that starts at unison and never
descends.  A stack of fewer than three intervals is admitted too, and only its
missing parts are refused.
-/

namespace Consonance

open Consonance.Text

/-- A closed position of a triad, measured upwards from the bass. -/
structure Voicing where
  /-- Zero for the root position, then the number of the inversion. -/
  inversion : Nat
  /-- The distance from the bass to the middle voice. -/
  middle : Value
  /-- The distance from the bass to the highest voice. -/
  high : Value
  /-- The voice that carries the root: zero for the bass, then the middle and the highest. -/
  rootVoice : Nat
  deriving Repr

/-- A chord quality. -/
structure ChordQuality where
  intervals : List Interval
  /-- The name, empty if there is none. -/
  name : String
  deriving DecidableEq, Repr

namespace ChordQuality

def sizes (intervals : List Interval) : List Value :=
  intervals.map fun i => .ofQuantity i.semitones

/-- Whether no value is less than the one before it. -/
def neverDescends : List Value → Except Failure Bool
  | [] => .ok true
  | [_] => .ok true
  | v :: w :: rest => do
    if ← w.holds .lt v then return false
    neverDescends (w :: rest)

def make (intervals : List Interval) (name : String) : Except Failure ChordQuality := do
  let semitones := sizes intervals
  match semitones.head?, semitones.getLast? with
  | some first, some last =>
    let fits ← neverDescends semitones
    if !first.equal (.int 0) || !fits || (← last.holds .ge (.int 12)) then
      Failure.raise (.invalid (.triadShape semitones))
    return ⟨intervals, name⟩
  | _, _ => .error .noSuchItem

/-- A triad by the sizes of its third and fifth. -/
def triad (third fifth : Nat) (name : String) : ChordQuality :=
  ⟨[.ofNat 0, .ofNat third, .ofNat fifth], name⟩

/-- A major third and a perfect fifth. -/
def major : ChordQuality := triad 4 7 "major"

/-- A minor third and a perfect fifth. -/
def minor : ChordQuality := triad 3 7 "minor"

/-- A minor third and a diminished fifth. -/
def diminished : ChordQuality := triad 3 6 "diminished"

/-- A major third and an augmented fifth. -/
def augmented : ChordQuality := triad 4 8 "augmented"

/-- A second in place of the third. -/
def sus2 : ChordQuality := triad 2 7 "sus2"

/-- A fourth in place of the third. -/
def sus4 : ChordQuality := triad 5 7 "sus4"

def table : List (String × ChordQuality) :=
  [("major", major), ("maj", major), ("minor", minor), ("min", minor), ("m", minor),
   ("diminished", diminished), ("dim", diminished), ("augmented", augmented), ("aug", augmented),
   ("sus2", sus2), ("sus4", sus4)]

/-- The quality of a name, capitals and blanks around it aside. -/
def ofName? (name : String) : Option ChordQuality := table.lookup (lower (strip name))

def ofTerm (t : Term) : Except Failure ChordQuality :=
  match t with
  | .val (.text s) =>
    match ofName? s with
    | some q => .ok q
    | none => .error (.unknownChordQuality t)
  | t => Failure.raise (.unknownChordQuality t)

/-- A quality as it is given: itself, or by its name. -/
inductive Given where
  | quality (q : ChordQuality)
  | name (t : Term)

/-- The quality that is given.  One that is given itself stays as it is. -/
def Given.parse : Given → Except Failure ChordQuality
  | .quality q => .ok q
  | .name t => ofTerm t

/-- The interval at a place of the stack. -/
def part (q : ChordQuality) (index : Nat) : Except Failure Interval :=
  match q.intervals[index]? with
  | some i => .ok i
  | none => .error .noSuchItem

/-- The chord tones with the lowest `inversion` of them moved up an octave. -/
def rotated (q : ChordQuality) (inversion : Nat) : Except Failure (List Value) := do
  let tones := sizes q.intervals
  return tones.drop inversion ++ (← (tones.take inversion).mapM fun tone => tone.add (.int 12))

/-- The voicing of an inversion.  It takes the three lowest of the moved tones. -/
def voicing (q : ChordQuality) (inversion : Nat) : Except Failure Voicing := do
  match ← q.rotated inversion with
  | low :: middle :: rest =>
    let middle ← middle.sub low
    match rest with
    | high :: _ => return ⟨inversion, middle, ← high.sub low, (3 - inversion) % 3⟩
    | [] => .error .noSuchItem
  | _ => .error .noSuchItem

def voicings (q : ChordQuality) : Except Failure (List Voicing) := [0, 1, 2].mapM q.voicing

/-- The chord tones above a root, as values since the root is one. -/
def tonesAbove (q : ChordQuality) (root : Value) : Except Failure (List Value) :=
  (sizes q.intervals).mapM fun size => root.add size

/-- The intervals in parentheses, as the text of a quality without a name. -/
def intervalsText (q : ChordQuality) : String :=
  let texts := q.intervals.map fun i => (Value.interval i).quoted
  match texts with
  | [single] => "(" ++ single ++ ",)"
  | texts => "(" ++ ", ".intercalate texts ++ ")"

def text (q : ChordQuality) : String :=
  if q.name = "" then "ChordQuality(" ++ q.intervalsText ++ ")" else q.name

/-- The text of a quality with its kind in view. -/
def quoted (q : ChordQuality) : String :=
  if q.name = "" then "ChordQuality(" ++ q.intervalsText ++ ")"
  else "ChordQuality." ++ upper q.name

theorem voicings_triad (third fifth : Nat) (name : String) :
    (triad third fifth name).voicings = .ok
      [⟨0, .int third, .int fifth, 0⟩, ⟨1, .int (fifth - third), .int (12 - third), 2⟩,
        ⟨2, .int (12 - fifth), .int (third + 12 - fifth), 1⟩] := by
  have h : (triad third fifth name).voicings = .ok
      [⟨0, .int ((third : Int) - 0), .int ((fifth : Int) - 0), 0⟩,
        ⟨1, .int (fifth - third), .int (0 + 12 - third), 2⟩,
        ⟨2, .int (0 + 12 - fifth), .int (third + 12 - fifth), 1⟩] := rfl
  rw [h]
  simp

example : (ofName? " Dim").map name = some "diminished" := by decide +kernel

end ChordQuality

end Consonance
