import Consonance.Pitch.Space
import Consonance.Store.Basic
import Consonance.Value.Coerce
import Consonance.Yaml.Reader

/-!
# Configuration

The one thing to configure is the range of absolute pitches.  It is given by a *bound*,
two integers in the MIDI range, or by a *preset*, a name for a bound.  A preset overrides
a bound.

A configuration comes from named fields, from a document with such fields, from a file
that holds a document, or from the environment of the program.  In the environment an
explicit preset comes first, then the preset variable, then the file, and without any of
them the whole MIDI range is used.  An empty name counts as none.

Fields of other names are ignored.  A configuration that cannot be had is rejected with
all its flaws, each at its place.
-/

namespace Consonance

/-! ## Presets -/

/-- A named range of pitches. -/
inductive Preset where
  | midi
  | piano
  deriving DecidableEq, Repr

namespace Preset

def name : Preset → String
  | .midi => "midi"
  | .piano => "piano"

def all : List Preset := [.midi, .piano]

def space : Preset → PitchSpace
  | .midi => .midi
  | .piano => .piano

def ofValue? : Value → Option Preset
  | .text s => all.find? fun p => p.name == s
  | _ => none

end Preset

/-! ## Configurations -/

/-- A configuration. -/
structure Config where
  lowest : Int
  highest : Int
  /-- The preset that gave the bound, if one did. -/
  preset : Option Preset
  deriving DecidableEq, Repr

namespace Config

/-- The configuration that is used if nothing is given. -/
def standard : Config := ⟨PitchSpace.midi.lowest, PitchSpace.midi.highest, none⟩

def ofPreset (p : Preset) : Config := ⟨p.space.lowest, p.space.highest, some p⟩

def pitchSpace (c : Config) : Except Failure PitchSpace := PitchSpace.make c.lowest c.highest

def reject {α : Type} (flaws : List (List Place × Flaw)) : Except Failure α :=
  Failure.raise (.rejected "EngineConfig" flaws)

/-- An end of a bound: the item at an index. -/
def readEnd (items : List Value) (index : Nat) : Except Flaw Int :=
  match items[index]? with
  | some v => v.toWhole
  | none => .error .missing

/-- The flaw of an end of a bound, at its place. -/
def flawAt (index : Nat) : Except Flaw Int → List (List Place × Flaw)
  | .ok _ => []
  | .error flaw => [([.field "bound", .item index], flaw)]

def readBound : Value → Except Failure (Int × Int)
  | .list items =>
    if 2 < items.length then reject [([.field "bound"], .tooLong)]
    else
      match readEnd items 0, readEnd items 1 with
      | .ok lowest, .ok highest =>
        if 0 ≤ lowest ∧ lowest ≤ highest ∧ highest ≤ 127 then .ok (lowest, highest)
        else reject [([.field "bound"], .boundRange lowest highest)]
      | lowest, highest => reject (flawAt 0 lowest ++ flawAt 1 highest)
  | _ => reject [([.field "bound"], .notSequence)]

def ofBound (v : Value) : Except Failure Config := do
  let (lowest, highest) ← readBound v
  return ⟨lowest, highest, none⟩

def ofFields (fields : List (Value × Value)) : Except Failure Config :=
  match (Value.field? "preset" fields).getD .nothing with
  | .nothing =>
    match Value.field? "bound" fields with
    | some v => ofBound v
    | none => .ok standard
  | v =>
    match Preset.ofValue? v with
    | some p => .ok (ofPreset p)
    | none => reject [([], .presetName v)]

/-- The configuration of the preset that a value names. -/
def forPreset (v : Value) : Except Failure Config :=
  match Preset.ofValue? v with
  | some p => .ok (ofPreset p)
  | none => Failure.raise (.invalid (.unknownPreset v))

def isText : Value → Bool
  | .text _ => true
  | .atom (.broken _) => true
  | _ => false

/-- The fields of a document with the elements of the bound in a list. -/
def listBound : List (Value × Value) → Except Failure (List (Value × Value))
  | [] => .ok []
  | (.text "bound", v) :: rest => do
    let elements ← v.elements
    return (.text "bound", .list elements) :: rest
  | field :: rest => do return field :: (← listBound rest)

/-- The configuration that a document gives.  An empty document gives the standard one. -/
def ofDocument (v : Value) : Except Failure Config :=
  if !v.isGiven then .ok standard
  else
    match v with
    | .record fields => do
      let fields ← listBound fields
      if fields.all fun field => isText field.1 then ofFields fields
      else .error (.mistyped .arguments)
    | v => .error (.mistyped (.noFields v.kind))

/-- How deep the value of a field matters.  A bound only has ends, a preset may be shown, and
nothing becomes of the other fields. -/
def depthOf : Value → Nat
  | .text "preset" => 1000
  | .text "bound" => 1
  | _ => 0

/-- The configuration that the text of a document gives. -/
def ofText (s : String) : Except Failure Config := do
  ofDocument (← Yaml.readValue s depthOf)

/-- The configuration in the file that a path leads to. -/
def ofFile (files : Store String) (path : String) : Except Failure Config := do
  ofText (← files.read (Path.ofText path))

end Config

/-! ## The environment -/

/-- The settings that a program finds in its environment. -/
structure Environment where
  configPath : Option String := none
  preset : Option String := none
  deriving DecidableEq, Repr

namespace Config

/-- Where a configuration comes from. -/
inductive Source where
  | preset (name : Value)
  | file (path : String)
  | standard
  deriving Repr

/-- The source that an explicit preset and the environment choose. -/
def source (preset : Value) (env : Environment) : Source :=
  let preset := if preset.isGiven then preset else .text (env.preset.getD "")
  let path := env.configPath.getD ""
  if preset.isGiven then .preset preset else if path = "" then .standard else .file path

def ofSource (files : Store String) : Source → Except Failure Config
  | .preset name => forPreset name
  | .file path => ofFile files path
  | .standard => .ok standard

/-- The configuration that an explicit preset, the environment and the files give. -/
def load (preset : Value) (env : Environment) (files : Store String) : Except Failure Config :=
  ofSource files (source preset env)

end Config

example : (Config.readBound (.list [.text "1", .int 5])).toOption = some (1, 5) := by decide +kernel

end Consonance
