import Consonance.Query.Solution

/-!
# Note queries

A note query asks for a pitch class, an octave and an absolute pitch that belong
together.  What is given narrows the answer, and what is left open is solved for.
-/

namespace Consonance

/-- What is known of a note.  The absent value leaves a part open. -/
structure NoteQuery where
  pitchClass : Value := .nothing
  octave : Value := .nothing
  /-- The absolute pitch, as a number or as the name of a note. -/
  pitch : Value := .nothing
  limit : Value := .nothing

namespace NoteQuery

/-- The goal of a query and the terms it asks for. -/
def goal (q : NoteQuery) : Builder (Goal × List Term) := do
  let c ← Builder.pitchClass (.val q.pitchClass)
  let octave ← Builder.openOr (.val q.octave)
  let pitch ← Builder.pitchArgument q.pitch
  return (Relation.note c octave pitch, [c, octave, pitch])

def describe : Row → Except Failure NoteSolution
  | [.val (.pitchClass c), octave, pitch] => NoteSolution.ofTerms c octave pitch
  | _ => .error (.mistyped .arguments)

/-- The solutions of a query in a pitch space. -/
def solve (q : NoteQuery) (space : PitchSpace) : Except Failure (List NoteSolution) := do
  let ((goal, terms), _) ← q.goal.run 0
  (← run goal terms q.limit space).mapM describe

end NoteQuery

end Consonance
