import Consonance.Formula
import Consonance.Json.Printer
import Consonance.Value.Coerce

/-!
# Describing pitches

A solution of a query shows each pitch as a note: its class under the canonical name, its
octave and its number.

The terms of a row are described as they are.  Where a whole number is expected and a
term stands for none, the solution is rejected with the field in question.
-/

namespace Consonance

/-- A pitch in a solution. -/
structure NoteSolution where
  pitchClass : PitchClass
  octave : Int
  pitch : Int
  deriving DecidableEq, Repr

/-- A term as a whole number of a solution. -/
def Term.toWhole : Term → Except Flaw Int
  | .var _ => .error .notInteger
  | .val v => v.toWhole

/-- The flaws of the fields that are no whole numbers. -/
def fieldFlaws : List (String × Except Flaw Int) → List (List Place × Flaw)
  | [] => []
  | (_, .ok _) :: rest => fieldFlaws rest
  | (name, .error flaw) :: rest => ([.field name], flaw) :: fieldFlaws rest

namespace NoteSolution

/-- The name of a pitch: its class and octave. -/
def name (n : NoteSolution) : String := n.pitchClass.name ++ toString n.octave

/-- The solution that a class, an octave and a pitch make. -/
def ofTerms (c : PitchClass) (octave pitch : Term) : Except Failure NoteSolution :=
  match octave.toWhole, pitch.toWhole with
  | .ok octave, .ok pitch => .ok ⟨c, octave, pitch⟩
  | octave, pitch =>
    Failure.raise
      (.rejected "NoteSolution" (fieldFlaws [("octave", octave), ("absolute_pitch", pitch)]))

/-- The note of a pitch of a space. -/
def ofPitch (space : PitchSpace) (pitch : Value) : Except Failure NoteSolution := do
  let n ← space.require pitch
  return ⟨.ofInt n, octaveOf n, n⟩

/-- The note of a term that has become a pitch of a space. -/
def ofTerm (space : PitchSpace) : Term → Except Failure NoteSolution
  | .val pitch => ofPitch space pitch
  | .var x => .error (.unknownPitchClass (.var x))

def record (n : NoteSolution) : Value :=
  Json.object
    [("pitch_class", .text n.pitchClass.name), ("octave", .int n.octave),
      ("absolute_pitch", .int n.pitch)]

end NoteSolution

namespace Builder

/-- A pitch argument of a query.  It is read as a number or as the name of a note. -/
def pitchArgument (v : Value) : Builder Term :=
  match v with
  | .nothing => fresh
  | v => do return .val (← resolvePitch v)

end Builder

end Consonance
