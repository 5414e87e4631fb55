import Consonance.Midi.Track

/-!
# MIDI files

A file holds a header and one track.  The header gives the format, the number of tracks
and the ticks of a beat in 16 bits each.  The track gives its length in 32 bits and then
its messages.

The ticks before a message are written in groups of seven bits, the highest group first,
and every group but the last has its high bit set.  A key message starts with a status
byte for its kind and channel.  The byte is left out where the message before had the
same one.  A message of another kind in between brings it back.
-/

namespace Consonance.Midi

/-- The bytes of a number, the highest first, in a given width.  What does not fit is cut
off at the high end. -/
def bigEndian : (width : Nat) → Nat → List UInt8
  | 0, _ => []
  | width + 1, n => bigEndian width (n / 256) ++ [UInt8.ofNat (n % 256)]

/-- The groups of seven bits of a number, all marked as followed by another group. -/
def continuedGroups (n : Nat) : List UInt8 :=
  if n = 0 then [] else continuedGroups (n / 128) ++ [UInt8.ofNat (n % 128 + 128)]
termination_by n
decreasing_by omega

/-- A number in groups of seven bits. -/
def variableLength (n : Nat) : List UInt8 := continuedGroups (n / 128) ++ [UInt8.ofNat (n % 128)]

/-- A part of a message as a byte. -/
def dataByte (v : Value) : UInt8 := UInt8.ofNat (v.whole?.getD 0).toNat

/-- The byte for the kind and the channel of a key message. -/
def KeyMessage.status (m : KeyMessage) : UInt8 :=
  (if m.isOn then 0x90 else 0x80) + dataByte m.channel

/-- The bytes of a message after one whose status byte is known, and the status byte that
is known after it. -/
def Message.bytes (running : Option UInt8) : Message → List UInt8 × Option UInt8
  | .tempo n => (0xFF :: 0x51 :: 0x03 :: bigEndian 3 n, none)
  | .key m =>
    let data := [dataByte m.note, dataByte m.velocity]
    (if running = some m.status then data else m.status :: data, some m.status)
  | .endOfTrack => ([0xFF, 0x2F, 0x00], none)

/-- The bytes of the messages of a track. -/
def trackBytes (running : Option UInt8) : Track → Except Failure (List UInt8)
  | [] => .ok []
  | timed :: rest =>
    match timed.delta.whole? with
    | none => .error (.invalid .tickCount)
    | some delta => do
      let (bytes, running) := timed.message.bytes running
      return variableLength delta.toNat ++ bytes ++ (← trackBytes running rest)

/-- The ticks of a beat as the header holds them: a signed number of 16 bits. -/
def divisionBytes (ticksPerBeat : Value) : Except Failure (List UInt8) :=
  match ticksPerBeat.whole? with
  | some n =>
    if -32768 ≤ n ∧ n < 32768 then .ok (bigEndian 2 (n % 65536).toNat) else .error .headerField
  | none => .error .headerField

/-- A part of a file: its tag, its length and its content. -/
def chunk (tag : String) (content : List UInt8) : List UInt8 :=
  tag.toList.map (fun c => UInt8.ofNat c.toNat) ++ bigEndian 4 content.length ++ content

/-- The bytes of a file with one track. -/
def fileBytes (ticksPerBeat : Value) (t : Track) : Except Failure (List UInt8) := do
  let header := chunk "MThd" ([0, 1, 0, 1] ++ (← divisionBytes ticksPerBeat))
  return header ++ chunk "MTrk" (← trackBytes none t)

example : variableLength 0 = [0] ∧ variableLength 480 = [0x83, 0x60] := by decide +kernel

end Consonance.Midi
