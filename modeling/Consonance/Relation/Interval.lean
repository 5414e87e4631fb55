import Consonance.Interval.Table
import Consonance.Solver.Goal

/-!
# The interval relations

Two pitches of the space are related by their distance.  `above` fixes which of the
two is the higher one, and `interval` does not.

The two alternatives of `interval` overlap where the distance is zero.  The second one
asks for a distance of at least one, so that this solution comes once.
-/

namespace Consonance.Relation

/-- The terms are pitches of the space. -/
def withinSpace (s : State) (pitches : List Term) : Goal :=
  Goal.conjoin (pitches.map fun p => .inDomain p (.domain s.spaceDomain))

/-- The term is a distance between pitches of the space, at least `least`. -/
def isDistance (s : State) (least : Int) (d : Term) : Goal :=
  .inDomain d (.domain (.interval least s.space.span))

/-- One pitch lies a distance above another. -/
def above (distance low high : Term) : Goal :=
  .project fun s => .ok <| Goal.conjoin
    [withinSpace s [low, high], isDistance s 0 distance, .difference high low distance]

/-- Two pitches lie a distance apart. -/
def interval (distance first second : Term) : Goal :=
  .project fun s => .ok <| Goal.conjoin
    [withinSpace s [first, second], isDistance s 0 distance,
      Goal.disjoin
        [.difference first second distance,
          Goal.conjoin [isDistance s 1 distance, .difference second first distance]]]

end Consonance.Relation
