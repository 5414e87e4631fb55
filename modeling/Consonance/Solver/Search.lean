import Consonance.Solver.Goal

/-!
# Search

A query asks for the values of some terms in every state in which a goal holds.  Terms
that the goal leaves open take every value they may take.  A *row* holds the values of
the queried terms in one solution, and rows come in the order of the solutions.

A limit cuts the rows off.  What lies beyond the limit is never worked out.  Rows can also be taken
in portions, each of which goes on where the one before it stopped.
-/

namespace Consonance

/-- The values of the queried terms in one solution. -/
abbrev Row := List Term

/-- The rows of a goal in a pitch space, worked out on demand. -/
def solutions (goal : Goal) (query : List Term) (space : PitchSpace) : Answers Row :=
  (Goal.conjoin [goal, .label query] (State.empty space)).map fun s => query.map s.walk

/-- The largest number of rows that can be asked for. -/
def greatestCount : Int := 9223372036854775807

/-- A value as a number of rows. -/
def rowCount (v : Value) : Except Failure Nat :=
  match v.whole? with
  | some n => if 0 ≤ n ∧ n ≤ greatestCount then .ok n.toNat else .error (.invalid .limitCount)
  | none => .error (.invalid .limitCount)

/-- The rows up to a limit.  The absent value is no limit. -/
def run (goal : Goal) (query : List Term) (limit : Value) (space : PitchSpace) :
    Except Failure (List Row) := do
  match limit with
  | .nothing => (solutions goal query space).all
  | limit =>
    if ← limit.holds .lt (.int 0) then Failure.raise (.invalid (.negativeLimit limit))
    return (← Answers.take (← rowCount limit) fun _ => solutions goal query space).1

/-- Rows in portions of the given sizes.  A value that is no size takes nothing, and after a failure
of the search nothing is left to take. -/
def portions (stream : Unit → Answers Row) : List Value → List (Except Failure (List Row))
  | [] => []
  | size :: sizes =>
    match rowCount size with
    | .error f => .error f :: portions stream sizes
    | .ok n =>
      match Answers.take n stream with
      | .ok (rows, left) => .ok rows :: portions left sizes
      | .error f => .error f :: portions (fun _ => .done) sizes

end Consonance
