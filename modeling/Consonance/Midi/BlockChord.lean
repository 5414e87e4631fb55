import Consonance.Midi.File
import Consonance.Solver.Domain

/-!
# Block chords

Solutions of a query are played as block chords, one after the other and all of one
length.  A solution is a sequence of pitches.  Each of its pitches sounds once, from the
start of the chord to its end.

The length of a chord in ticks is cut down to a whole number once, and the chord of
index `i` starts at `i` times that number.  So chords neither overlap nor drift apart.
-/

namespace Consonance.Midi

/-- The number of ticks in a beat. -/
def standardTicks : Int := 480

/-- How block chords are played. -/
structure Playing where
  /-- The length of a chord in beats. -/
  beatsPerChord : Value := .float .one
  velocity : Value := .int 80
  ticksPerBeat : Value := .int standardTicks

/-- The whole number of ticks that a chord lasts. -/
def Playing.chordTicks (p : Playing) : Except Failure Int := do
  (← p.beatsPerChord.mul p.ticksPerBeat).toInteger

/-- The different pitches of a solution in ascending order. -/
def distinctPitches (solution : Value) : Except Failure (List Value) := do
  (← Domain.ofList (← solution.elements)).toList

/-- The events of the chord that starts after `index` chords of some length. -/
def chordEvents (velocity : Value) (ticks : Int) (index : Nat) (solution : Value) :
    Except Failure (List NoteEvent) := do
  (← distinctPitches solution).mapM fun pitch =>
    NoteEvent.make pitch (.int (index * ticks)) (.int ticks) velocity (.int 0)

/-- The events of chords, the first of which has the given index. -/
def chordEventsFrom (velocity : Value) (ticks : Int) (index : Nat) :
    List Value → Except Failure (List NoteEvent)
  | [] => .ok []
  | solution :: rest => do
    let events ← chordEvents velocity ticks index solution
    return events ++ (← chordEventsFrom velocity ticks (index + 1) rest)

/-- The events of a sequence of solutions. -/
def blockChords (p : Playing) (solutions : Value) : Except Failure (List NoteEvent) := do
  let ticks ← p.chordTicks
  chordEventsFrom p.velocity ticks 0 (← solutions.elements)

/-- The track of a sequence of solutions. -/
def blockChordTrack (p : Playing) (beatsPerMinute solutions : Value) : Except Failure Track := do
  track (← blockChords p solutions) beatsPerMinute

example : (Playing.chordTicks {}).toOption = some 480 := by decide +kernel

end Consonance.Midi
