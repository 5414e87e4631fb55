import Consonance.Pitch.Name
import Consonance.Solver.Goal

/-!
# The note relation

A pitch class, an octave and an absolute pitch are related when they name one pitch
of the space.  What is known when the goal is reached decides how it is solved.

* A known pitch gives its class and octave, and nothing outside the space.
* A known class and octave give the pitch, and a known class the pitches of every
  octave of the space.
* A known octave gives the twelve classes.
* With nothing known, every value the pitch may take is tried in ascending order.

In the last case a value outside the space is a failure of the whole search and not
of a branch.
-/

namespace Consonance.Relation

/-- The goal that three terms are a class, an octave and the absolute pitch they name. -/
def placedAt (c octave pitch : Term) (class' octave' : Value) (pitch' : Int) : Goal :=
  Goal.conjoin [.eq c (.val class'), .eq octave (.val octave'), .eq pitch (.int pitch')]

/-- One alternative for each class and octave that lie in the space.  A class that is
given by name is read first. -/
def placements (space : PitchSpace) (c octave pitch : Term) :
    List (Value × Value) → Except Failure (List Goal)
  | [] => .ok []
  | (class', octave') :: rest => do
    let position ← PitchClass.ofValue class'
    match space.absolute position octave' with
    | .ok n =>
      return placedAt c octave pitch class' octave' n :: (← placements space c octave pitch rest)
    | .error (.deadEnd _) => placements space c octave pitch rest
    | .error f => .error f

/-- The class and the octave of an absolute pitch, as values. -/
def description (space : PitchSpace) (pitch : Value) : Except Failure (Value × Value) := do
  let (c, octave) ← space.describe pitch
  return (.pitchClass c, .int octave)

/-- The classes and octaves of absolute pitches. -/
def descriptions (space : PitchSpace) (pitches : List Value) :
    Except Failure (List (Value × Value)) :=
  pitches.mapM (description space)

/-- The classes and octaves to try for the note relation when the pitch is open.  The terms
are looked up already. -/
def noteCandidates (s : State) (c octave pitch : Term) :
    Except Failure (List (Value × Value)) := do
  match c, octave with
  | .val class', .val octave' => return [(class', octave')]
  | .val class', .var _ => return s.space.octaves.map fun o => (class', .int o)
  | .var _, .val octave' => return PitchClass.all.map fun c => (.pitchClass c, octave')
  | .var _, .var _ => descriptions s.space (← s.candidates pitch)

/-- The goal for the note relation in a given state. -/
def noteIn (s : State) (c octave pitch : Term) : Except Failure Goal := do
  let c := s.walk c
  let octave := s.walk octave
  match s.walk pitch with
  | .val p =>
    match s.space.describe p with
    | .ok (class', octave') =>
      return Goal.conjoin [.eq c (.val (.pitchClass class')), .eq octave (.int octave')]
    | .error (.deadEnd _) => return Goal.fail
    | .error f => .error f
  | pitch =>
    let candidates ← noteCandidates s c octave pitch
    return Goal.disjoin (← placements s.space c octave pitch candidates)

def note (c octave pitch : Term) : Goal := .project fun s => noteIn s c octave pitch

end Consonance.Relation
