import Consonance.Query.Solution

/-!
# Chord queries

A chord query asks for the closed voicings of a triad.  The root and any of the three
voices can be given.

A solution tells which inversion it is by the voice that carries the root.  It is looked up
among the voices of the row, and a root that is none of them would be a failure.
-/

namespace Consonance

/-- What is known of a chord.  The absent value leaves a pitch open. -/
structure ChordQuery where
  quality : Value
  root : Value := .nothing
  low : Value := .nothing
  middle : Value := .nothing
  high : Value := .nothing
  limit : Value := .nothing

/-- A voicing of a triad. -/
structure ChordSolution where
  quality : String
  root : NoteSolution
  /-- The voices, from the lowest one up. -/
  voices : List NoteSolution
  /-- The number of the inversion, zero for the root position. -/
  inversion : Nat
  deriving DecidableEq, Repr

namespace ChordSolution

def pitches (s : ChordSolution) : List Int := s.voices.map NoteSolution.pitch

def record (s : ChordSolution) : Value :=
  Json.object
    [("quality", .text s.quality), ("root", s.root.record),
     ("voices", .list (s.voices.map NoteSolution.record)), ("inversion", .int s.inversion)]

end ChordSolution

namespace ChordQuery

/-- The goal of a query, its quality and the pitches it asks for. -/
def goal (q : ChordQuery) : Builder (Goal × ChordQuality × List Term) := do
  let quality ← ChordQuality.ofTerm (.val q.quality)
  let root ← Builder.pitchArgument q.root
  let low ← Builder.pitchArgument q.low
  let middle ← Builder.pitchArgument q.middle
  let high ← Builder.pitchArgument q.high
  return (← Relation.chord quality root low middle high, quality, [root, low, middle, high])

/-- The inversion in which the root is one of the voices.  It is the highest voice in the
first inversion and the middle one in the second.  Where voices coincide, the middle one counts
before the highest and the highest before the bass. -/
def inversionOf (root low middle high : Value) : Except Failure Nat :=
  if root.same middle then .ok 2
  else if root.same high then .ok 1
  else if root.same low then .ok 0
  else .error (.noSuchKey root)

def describe (space : PitchSpace) (quality : ChordQuality) : Row → Except Failure ChordSolution
  | [.val root, .val low, .val middle, .val high] => do
    let inversion ← inversionOf root low middle high
    let root ← NoteSolution.ofPitch space root
    let low ← NoteSolution.ofPitch space low
    let middle ← NoteSolution.ofPitch space middle
    let high ← NoteSolution.ofPitch space high
    return ⟨quality.name, root, [low, middle, high], inversion⟩
  | _ => .error (.mistyped .arguments)

/-- The solutions of a query in a pitch space. -/
def solve (q : ChordQuery) (space : PitchSpace) : Except Failure (List ChordSolution) := do
  let ((goal, quality, terms), _) ← q.goal.run 0
  (← run goal terms q.limit space).mapM (describe space quality)

end ChordQuery

end Consonance
