import Consonance.Query.Solution

/-!
# Interval queries

An interval query asks for two pitches some distance apart, in either direction.  The
distance is the name of an interval or a number of semitones, also in digits.
-/

namespace Consonance

open Consonance.Text

/-- What is known of two pitches.  The absent value leaves a pitch open. -/
structure IntervalQuery where
  /-- The name of the interval, or its number of semitones. -/
  interval : Value
  first : Value := .nothing
  second : Value := .nothing
  limit : Value := .nothing

/-- Two pitches and their distance. -/
structure IntervalSolution where
  distance : Int
  /-- The name of the distance, if it has one. -/
  interval : Option String
  first : NoteSolution
  second : NoteSolution
  deriving DecidableEq, Repr

def IntervalSolution.record (s : IntervalSolution) : Value :=
  let name := match s.interval with
    | some name => Value.text name
    | none => .nothing
  Json.object
    [("distance", .int s.distance), ("interval", name), ("pitch_a", s.first.record),
     ("pitch_b", s.second.record)]

namespace IntervalQuery

/-- The interval argument with digits read as a number. -/
def intervalArgument (v : Value) : Except Failure Value :=
  match v with
  | .text s =>
    let body := (strip s).toList
    if !body.isEmpty && body.all isDigitLike then return .int (← Value.integerOfText s)
    else return v
  | v => return v

/-- The goal of a query, its distance and the pitches it asks for. -/
def goal (q : IntervalQuery) : Builder (Goal × Term × List Term) := do
  let distance ← Builder.distance (.val (← intervalArgument q.interval))
  let first ← Builder.pitchArgument q.first
  let second ← Builder.pitchArgument q.second
  return (Relation.interval distance first second, distance, [first, second])

def describe (space : PitchSpace) (distance : Term) : Row → Except Failure IntervalSolution
  | [first, second] => do
    let first ← NoteSolution.ofTerm space first
    let second ← NoteSolution.ofTerm space second
    match distance, distance.toWhole with
    | .val v, .ok d => return ⟨d, ← IntervalTable.common.nameOf? v, first, second⟩
    | _, distance =>
      Failure.raise (.rejected "IntervalSolution" (fieldFlaws [("distance", distance)]))
  | _ => .error (.mistyped .arguments)

/-- The solutions of a query in a pitch space. -/
def solve (q : IntervalQuery) (space : PitchSpace) : Except Failure (List IntervalSolution) := do
  let ((goal, distance, terms), _) ← q.goal.run 0
  (← run goal terms q.limit space).mapM (describe space distance)

end IntervalQuery

end Consonance
