import Consonance.Config
import Consonance.Midi.BlockChord
import Consonance.Parameter
import Consonance.Query.Chord
import Consonance.Query.Interval
import Consonance.Query.Note

/-!
# Tools

A tool is a query under a name, with arguments from a remote caller and an answer in JSON.
Three tools solve queries, one writes chords to a MIDI file, and two list names.

An answer says whether the call succeeded.  Whatever goes wrong after the arguments are
bound to their parameters is part of the answer: the words of the failure.

A query tool looks at the preset first, then at the limit and then at the query.  Without
a limit it gives at most 24 solutions.
-/

namespace Consonance

/-- A tool. -/
inductive Tool where
  | note
  | interval
  | chord
  /-- Writes the solutions of a chord query to a MIDI file. -/
  | exportChords
  | listIntervals
  | listPitchClasses
  deriving DecidableEq, Repr

namespace Tool

def all : List Tool := [.note, .interval, .chord, .exportChords, .listIntervals, .listPitchClasses]

def name : Tool → String
  | .note => "harmony_note"
  | .interval => "harmony_interval"
  | .chord => "harmony_chord"
  | .exportChords => "harmony_export_chords"
  | .listIntervals => "harmony_list_intervals"
  | .listPitchClasses => "harmony_list_pitch_classes"

def ofName? (name : String) : Option Tool := all.find? fun t => t.name == name

/-- The tempo of exported chords, in beats a minute. -/
def exportTempo : Int := 90

def parameters : Tool → List Parameter
  | .note => ["pitch_class", "octave", "absolute_pitch", "limit", "preset"].map .optional
  | .interval => .required "interval" :: ["pitch_a", "pitch_b", "limit", "preset"].map .optional
  | .chord =>
    .required "quality" :: ["root", "low", "middle", "high", "limit", "preset"].map .optional
  | .exportChords =>
    [.required "quality", .required "output_name", .optional "root", .optional "low",
      .optional "limit", ⟨"tempo", some (.int exportTempo)⟩]
  | .listIntervals => []
  | .listPitchClasses => []

/-! ## Limits and spaces -/

/-- The most solutions that a tool gives if no limit is given. -/
def usualLimit : Int := 24

def greatestLimit : Nat := 512

/-- The limit that a limit argument stands for. -/
def limitOf (v : Value) : Except Failure Value :=
  match v with
  | .nothing => .ok (.int usualLimit)
  | v => do
    if ← v.within 1 greatestLimit then return v
    Failure.raise (.invalid (.limitRange v greatestLimit))

/-- The pitch space of the named preset, or of the configuration if none is named. -/
def spaceOf (config : Config) (preset : Value) : Except Failure PitchSpace := do
  match preset with
  | .nothing => config.pitchSpace
  | preset => (← Config.forPreset preset).pitchSpace

/-! ## Answers -/

abbrev Exports := Store (List UInt8)

def exportDirectory : Path := .ofText "output"

/-- The fields of an answer that lists solutions. -/
def listing (key : String) (solutions : List Value) : List (String × Value) :=
  [("count", .int solutions.length), (key, .list solutions)]

/-- The fields of the answer to a note query. -/
def noteFields (config : Config) (q : NoteQuery) (preset : Value) :
    Except Failure (List (String × Value)) := do
  let space ← spaceOf config preset
  let limit ← limitOf q.limit
  let solutions ← { q with limit }.solve space
  return listing "notes" (solutions.map NoteSolution.record)

/-- The fields of the answer to an interval query. -/
def intervalFields (config : Config) (q : IntervalQuery) (preset : Value) :
    Except Failure (List (String × Value)) := do
  let space ← spaceOf config preset
  let limit ← limitOf q.limit
  let solutions ← { q with limit }.solve space
  return listing "intervals" (solutions.map IntervalSolution.record)

/-- The fields of the answer to a chord query. -/
def chordFields (config : Config) (q : ChordQuery) (preset : Value) :
    Except Failure (List (String × Value)) := do
  let space ← spaceOf config preset
  let limit ← limitOf q.limit
  let solutions ← { q with limit }.solve space
  return listing "chords" (solutions.map ChordSolution.record)

def exportPath (outputName : String) : Path :=
  exportDirectory.join (.ofText (outputName ++ ".mid"))

/-- Writes the chords of a query to a file, and gives the fields of the answer and the
files after it. -/
def exportFile (config : Config) (q : ChordQuery) (outputName tempo : Value) (files : Exports) :
    Except Failure (List (String × Value) × Exports) := do
  let limit ← limitOf q.limit
  let solutions ← { q with limit }.solve (← config.pitchSpace)
  let chords := Value.list (solutions.map fun s => .list (s.pitches.map .int))
  let track ← Midi.blockChordTrack {} tempo chords
  let bytes ← Midi.fileBytes (.int Midi.standardTicks) track
  let path := exportPath (← outputName.requirePlain)
  let files ← (← files.makeDirectory exportDirectory).write path bytes
  let count := solutions.length
  let fields : List (String × Value) :=
    [("path", .text path.text), ("chords", .int count),
      ("message", .text ("Exported " ++ toString count ++ " chords"))]
  return (fields, files)

/-- The fields of the list of interval names. -/
def intervalNameFields : List (String × Value) :=
  let table := IntervalTable.common
  let entry := fun name =>
    let distance := (table.named.lookup name).getD (.int 0)
    Json.object [("name", .text name), ("semitones", .ofQuantity distance)]
  [("intervals", .list (table.names.map entry))]

/-- The fields of the list of pitch classes. -/
def pitchClassFields : List (String × Value) :=
  let entry := fun (c : PitchClass) =>
    Json.object
      [("position", .int c.toInt), ("name", .text c.name),
        ("aliases", .list (c.spelling.aliases.map .text))]
  [("pitch_classes", .list (PitchClass.all.map entry))]

def answer : Except Failure (List (String × Value)) → String
  | .ok fields => Json.write (Json.object (("status", .text "success") :: fields))
  | .error f => Json.write (Json.object [("status", .text "error"), ("message", .text f.message)])

/-! ## Calls -/

/-- The answer of a tool to its arguments, in the order of its parameters, and the files
after the call. -/
def run (config : Config) (files : Exports) : Tool → List Value → Except Failure (String × Exports)
  | .note, [pitchClass, octave, pitch, limit, preset] =>
    .ok (answer (noteFields config ⟨pitchClass, octave, pitch, limit⟩ preset), files)
  | .interval, [distance, first, second, limit, preset] =>
    .ok (answer (intervalFields config ⟨distance, first, second, limit⟩ preset), files)
  | .chord, [quality, root, low, middle, high, limit, preset] =>
    .ok (answer (chordFields config ⟨quality, root, low, middle, high, limit⟩ preset), files)
  | .exportChords, [quality, outputName, root, low, limit, tempo] =>
    let query := ⟨quality, root, low, .nothing, .nothing, limit⟩
    match exportFile config query outputName tempo files with
    | .ok (fields, files) => .ok (answer (.ok fields), files)
    | .error f => .ok (answer (.error f), files)
  | .listIntervals, [] => .ok (answer (.ok intervalNameFields), files)
  | .listPitchClasses, [] => .ok (answer (.ok pitchClassFields), files)
  | _, _ => .error (.mistyped .arguments)

/-- The answer of a tool to named arguments, and the files after the call. -/
def call (config : Config) (files : Exports) (t : Tool) (given : List (Value × Value)) :
    Except Failure (String × Exports) := do
  run config files t (← Parameter.bind t.parameters given)

end Tool

end Consonance
