import Consonance.Value.Arithmetic

/-!
# Note events

A note event is a key that is struck at some tick and released some ticks later.  Ticks
are counted from the start of the track.

The parts come as values.  `NoteEvent.make` checks their ranges one after the other: the
pitch, the velocity, the channel, the start and the duration.  A part of the wrong kind
fails in its turn, since it cannot be compared with the ends of its range.
-/

namespace Consonance.Midi

/-- A key that sounds from one tick on for some ticks. -/
structure NoteEvent where
  pitch : Value
  start : Value
  duration : Value
  velocity : Value
  channel : Value
  deriving Repr

namespace NoteEvent

/-- Fails unless a part lies between zero and its greatest value. -/
def requireUpTo (greatest : Int) (part : EventPart) (v : Value) : Except Failure Unit := do
  if !(← v.within 0 greatest) then Failure.raise (.invalid (.eventRange part v))

/-- Fails if a part is negative. -/
def requireNonnegative (part : EventPart) (v : Value) : Except Failure Unit := do
  if ← v.holds .lt (.int 0) then Failure.raise (.invalid (.eventRange part v))

def make (pitch start duration velocity channel : Value) : Except Failure NoteEvent := do
  requireUpTo 127 .pitch pitch
  requireUpTo 127 .velocity velocity
  requireUpTo 15 .channel channel
  requireNonnegative .start start
  requireNonnegative .duration duration
  return ⟨pitch, start, duration, velocity, channel⟩

example : (make (.int 60) (.int 0) (.int 480) (.int 100) (.int 0)).isOk = true := by decide +kernel

example : (make (.int 60) (.int (-1)) (.int 480) (.int 100) (.int 0)).isOk = false := by
  decide +kernel

end NoteEvent

end Consonance.Midi
