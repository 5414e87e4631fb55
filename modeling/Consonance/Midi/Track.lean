import Consonance.Midi.Event

/-!
# Tracks

A track is a list of messages, each with the number of ticks since the one before.  It
sets the tempo, strikes and releases keys, and ends.

Every note event gives two *strokes*, a message that strikes the key and one that
releases it, each at its tick.  Strokes are put in the order of their ticks.  At one tick
releases come before strikes, so that a key can be struck again at the tick of its
release, and lower keys come before higher ones.  Strokes that agree in all of this keep
the order of their events.
-/

namespace Consonance.Midi

/-- A message that strikes or releases a key. -/
structure KeyMessage where
  /-- Whether the key is struck. -/
  isOn : Bool
  channel : Value
  note : Value
  /-- The strength of the stroke, zero for a release. -/
  velocity : Value
  deriving Repr

/-- A message of a track. -/
inductive Message where
  /-- The length of a beat in microseconds. -/
  | tempo (microseconds : Nat)
  | key (message : KeyMessage)
  | endOfTrack
  deriving Repr

/-- A message and the ticks since the one before. -/
structure TimedMessage where
  delta : Value
  message : Message
  deriving Repr

/-- The messages of a track in order. -/
abbrev Track := List TimedMessage

/-! ## Strokes -/

/-- A key message at a tick. -/
structure Stroke where
  /-- The tick, counted from the start of the track. -/
  tick : Value
  message : KeyMessage
  deriving Repr

/-- Fails for a value that no part of a message can hold. -/
def requireData (v : Value) : Except Failure Unit :=
  if v.whole?.isSome then .ok () else .error (.mistyped .dataByte)

/-- The key message with the given parts. -/
def KeyMessage.make (isOn : Bool) (channel note velocity : Value) : Except Failure KeyMessage := do
  requireData channel
  requireData note
  requireData velocity
  return ⟨isOn, channel, note, velocity⟩

/-- The two strokes of a note event. -/
def NoteEvent.strokes (e : NoteEvent) : Except Failure (List Stroke) := do
  let struck ← KeyMessage.make true e.channel e.pitch e.velocity
  let stop ← e.start.add e.duration
  return [⟨e.start, struck⟩, ⟨stop, ← KeyMessage.make false e.channel e.pitch (.int 0)⟩]

/-- The order of strokes in a track. -/
def Stroke.order (a b : Stroke) : Ordering :=
  (a.tick.order b.tick).then <|
    (compare a.message.isOn b.message.isOn).then (a.message.note.order b.message.note)

/-- The strokes in the order of the track. -/
def arrange (strokes : List Stroke) : List Stroke := strokes.mergeSort fun a b => a.order b != .gt

/-- The strokes as messages, each timed from the one before.  The first one is timed from
`now`. -/
def timedFrom (now : Value) : List Stroke → Except Failure Track
  | [] => .ok []
  | s :: rest => do
    let delta ← s.tick.sub now
    return ⟨delta, .key s.message⟩ :: (← timedFrom s.tick rest)

/-! ## Tracks -/

/-- The greatest length of a beat that fits a tempo message. -/
def greatestTempo : Int := 16777215

/-- The length of a beat, in whole microseconds, at some number of beats a minute. -/
def tempoOf (beatsPerMinute : Value) : Except Failure Nat := do
  let n ← (← Value.div (.int 60000000) beatsPerMinute).toInteger
  if 0 ≤ n ∧ n ≤ greatestTempo then return n.toNat else Failure.raise (.invalid .tempoRange)

/-- The track of some events at a tempo. -/
def track (events : List NoteEvent) (beatsPerMinute : Value) : Except Failure Track := do
  let tempo ← tempoOf beatsPerMinute
  let strokes ← events.mapM NoteEvent.strokes
  let keys ← timedFrom (.int 0) (arrange strokes.flatten)
  return ⟨.int 0, .tempo tempo⟩ :: (keys ++ [⟨.int 0, .endOfTrack⟩])

example : (tempoOf (.int 120)).toOption = some 500000 := by decide +kernel

end Consonance.Midi
