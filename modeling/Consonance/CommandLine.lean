import Consonance.Config

/-!
# The command line

The words after the name of the program say how the server is reached and how it is
configured.

First every word is taken by itself.  A word that starts with a dash is a switch.  It is
spelled in full, or by a beginning that only one long spelling has.  An argument can be
attached to it after an equals sign, and to a single letter without one.  A negative number
and a word with a blank in it are no switches in spite of their dash, unless they begin like
one.  After a word of two dashes there are only arguments.

Then the words are gone through from the left.  A setting without an attached argument
takes the next word, which must be an argument.  The last of several arguments for a
setting counts, and two attached dashes are an argument that leaves the setting without a
value.  A call for help ends the reading where it stands, and so does a misuse.  The words
that nothing took are a misuse as well, but only at the end.
-/

namespace Consonance

/-- How callers reach the server. -/
inductive Transport where
  | stdio
  | http
  deriving DecidableEq, Repr

namespace Transport

def name : Transport → String
  | .stdio => "stdio"
  | .http => "http"

def all : List Transport := [.stdio, .http]

def ofName? (name : String) : Option Transport := all.find? fun t => t.name == name

end Transport

namespace CommandLine

/-! ## Switches -/

/-- Something that an argument is given for. -/
inductive Setting where
  | transport
  | endpoint
  | preset
  | config
  deriving DecidableEq, Repr

/-- A switch. -/
inductive Switch where
  | help
  /-- Makes the server say more about its work. -/
  | debug
  | setting (s : Setting)
  deriving DecidableEq, Repr

/-- All switches, in the order in which help lists them. -/
def Switch.all : List Switch :=
  [.help, .setting .transport, .setting .endpoint, .setting .preset, .setting .config, .debug]

def Setting.spelling : Setting → String
  | .transport => "--transport"
  | .endpoint => "--port"
  | .preset => "--preset"
  | .config => "--config"

def Switch.spelling : Switch → String
  | .help => "--help"
  | .debug => "--debug"
  | .setting s => s.spelling

def Switch.spellings : Switch → List String
  | .help => ["-h", "--help"]
  | s => [s.spelling]

/-- The arguments that a setting admits, if there is a list of them. -/
def Setting.choices : Setting → List String
  | .transport => Transport.all.map Transport.name
  | .preset => Preset.all.map Preset.name
  | _ => []

/-! ## Misuse -/

/-- What is wrong with a command line. -/
inductive Misuse where
  /-- A word is the beginning of several spellings. -/
  | ambiguous (word : String) (spellings : List String)
  | noArgument (s : Setting)
  /-- A switch takes no argument but has one. -/
  | unwantedArgument (s : Switch) (text : String)
  | notInteger (s : Setting) (text : String)
  /-- An argument is none of the choices. -/
  | notChoice (s : Setting) (text : String)
  | leftOver (words : List String)
  deriving DecidableEq, Repr

/-- A complaint about the argument of a switch. -/
def Switch.complaint (s : Switch) (text : String) : String :=
  "argument " ++ "/".intercalate s.spellings ++ ": " ++ text

def Misuse.message : Misuse → String
  | .ambiguous word spellings =>
    "ambiguous option: " ++ word ++ " could match " ++ ", ".intercalate spellings
  | .noArgument s => (Switch.setting s).complaint "expected one argument"
  | .unwantedArgument s text => s.complaint ("ignored explicit argument " ++ Text.quoted text)
  | .notInteger s text => (Switch.setting s).complaint ("invalid int value: " ++ Text.quoted text)
  | .notChoice s text =>
    (Switch.setting s).complaint
      ("invalid choice: " ++ Text.quoted text ++ " (choose from " ++
        ", ".intercalate (s.choices.map Text.quoted) ++ ")")
  | .leftOver words => "unrecognized arguments: " ++ " ".intercalate words

/-! ## Words -/

/-- What a word of the command line is. -/
inductive Word where
  | argument (text : String)
  /-- A switch, and the argument attached to it. -/
  | switch (s : Switch) (attached : Option String)
  /-- The letter that asks for help, and what is attached to it. -/
  | letters (attached : List Char)
  | stray (text : String)
  deriving DecidableEq, Repr

/-- A word before its first equals sign, and what is attached after it. -/
def splitAttached (word : String) : String × Option String :=
  let front := word.toList.takeWhile (· != '=')
  (.ofList front, ((word.toList.drop front.length).tail?).map String.ofList)

/-- Whether a text is digits, as many as are wanted. -/
def areDigits (atLeast : Nat) (cs : List Char) : Bool :=
  atLeast ≤ cs.length && cs.all Text.isDecimal

/-- Whether a word is a negative number: digits after the dash, or digits around a point
of which the first may be missing.  A line end may follow. -/
def isNegativeNumber (word : String) : Bool :=
  match word.toList with
  | '-' :: body =>
    let body := if body.getLast? = some '\n' then body.dropLast else body
    let whole := body.takeWhile (· != '.')
    match body.drop whole.length with
    | [] => areDigits 1 whole
    | _ :: places => areDigits 0 whole && areDigits 1 places
  | _ => false

def switchSpelled? (word : String) : Option Switch :=
  Switch.all.find? fun s => s.spellings.contains word

/-- The switches whose long spelling begins like this. -/
def switchesFrom (beginning : String) : List Switch :=
  Switch.all.filter fun s => beginning.toList.isPrefixOf s.spelling.toList

/-- A word with a dash in front, as a word that no spelling fits. -/
def unspelled (word : String) : Word :=
  if isNegativeNumber word || word.toList.contains ' ' then .argument word else .stray word

/-- What a word is that comes before any word of two dashes. -/
def readWord (word : String) : Except Misuse Word :=
  let (front, attached) := splitAttached word
  match word.toList with
  | ['-'] => .ok (.argument word)
  | '-' :: '-' :: _ =>
    match switchSpelled? front, switchesFrom front with
    | some s, _ => .ok (.switch s attached)
    | none, [] => .ok (unspelled word)
    | none, [s] => .ok (.switch s attached)
    | none, several => .error (.ambiguous word (several.map Switch.spelling))
  | '-' :: 'h' :: '=' :: text => .ok (if text = [] then .switch .help (some "") else .letters text)
  | '-' :: 'h' :: more => .ok (.letters more)
  | '-' :: _ => .ok (unspelled word)
  | _ => .ok (.argument word)

/-- What the words are. -/
def readWords : List String → Except Misuse (List Word)
  | [] => .ok []
  | word :: rest =>
    if word = "--" then .ok (.stray word :: rest.map Word.argument)
    else do return (← readWord word) :: (← readWords rest)

/-! ## Settings -/

/-- What the command line says. -/
structure Settings where
  transport : Transport := .stdio
  /-- The number of the network endpoint, if it has one. -/
  endpoint : Option Int := some 8000
  preset : Option Preset := none
  configPath : Option String := none
  /-- Whether the server is to say more about its work. -/
  debug : Bool := false
  deriving DecidableEq, Repr

/-- What ends the reading of a command line early. -/
inductive Ending where
  | help
  | misuse (m : Misuse)
  deriving DecidableEq, Repr

/-- Leaves a setting without a value.  Whatever is not the standard streams is the network. -/
def Settings.clear (s : Settings) : Setting → Settings
  | .transport => { s with transport := .http }
  | .endpoint => { s with endpoint := none }
  | .preset => { s with preset := none }
  | .config => { s with configPath := none }

/-- Sets what an argument is given for. -/
def Settings.assign (s : Settings) : Setting → String → Except Misuse Settings
  | .transport, text =>
    match Transport.ofName? text with
    | some transport => .ok { s with transport }
    | none => .error (.notChoice .transport text)
  | .endpoint, text =>
    match Number.readInteger text with
    | .ok endpoint => .ok { s with endpoint := some endpoint }
    | .error _ => .error (.notInteger .endpoint text)
  | .preset, text =>
    match Preset.ofValue? (.text text) with
    | some p => .ok { s with preset := some p }
    | none => .error (.notChoice .preset text)
  | .config, text => .ok { s with configPath := some text }

/-- Sets what an attached argument is given for. -/
def Settings.attach (s : Settings) (x : Setting) (text : String) : Except Misuse Settings :=
  if text = "--" then .ok (s.clear x) else s.assign x text

/-- What the letter that asks for help comes to with what is attached to it.  The letter may
be repeated, and what is left after that is an argument that it does not take. -/
def lettersEnding : List Char → Ending
  | [] => .help
  | 'h' :: rest => lettersEnding rest
  | text => .misuse (.unwantedArgument .help (.ofList text))

/-- Goes through the words.  `left` holds the words that nothing took so far. -/
def settle (s : Settings) (left : List String) : List Word → Except Ending Settings
  | [] => if left = [] then .ok s else .error (.misuse (.leftOver left))
  | .argument text :: rest => settle s (left ++ [text]) rest
  | .stray text :: rest => settle s (left ++ [text]) rest
  | .letters attached :: _ => .error (lettersEnding attached)
  | .switch .help none :: _ => .error .help
  | .switch .debug none :: rest => settle { s with debug := true } left rest
  | .switch .help (some text) :: _ => .error (.misuse (.unwantedArgument .help text))
  | .switch .debug (some text) :: _ => .error (.misuse (.unwantedArgument .debug text))
  | .switch (.setting x) (some text) :: rest =>
    match s.attach x text with
    | .ok s => settle s left rest
    | .error m => .error (.misuse m)
  | .switch (.setting x) none :: .argument text :: rest =>
    match s.assign x text with
    | .ok s => settle s left rest
    | .error m => .error (.misuse m)
  | .switch (.setting x) none :: _ => .error (.misuse (.noArgument x))

/-- What a command line says. -/
def read (words : List String) : Except Ending Settings :=
  match readWords words with
  | .ok words => settle {} [] words
  | .error m => .error (.misuse m)

/-! ## What the user is told -/

def programName : String := "chuk-mcp-harmony"

/-- The names of choices, as the user is told them. -/
def choiceList (s : Setting) : String := "\x7b" ++ ",".intercalate s.choices ++ "\x7d"

/-- How the program is called. -/
def usage : String :=
  "usage: " ++ programName ++ " [-h] [--transport " ++ choiceList .transport ++
    "] [--port PORT]\n" ++
    "                        [--preset " ++ choiceList .preset ++ "] [--config CONFIG] [--debug]\n"

/-- What the program tells about itself. -/
def helpText : String :=
  usage ++ "\nCHUK Harmony MCP Server\n\noptions:\n" ++
    "  -h, --help            show this help message and exit\n" ++
    "  --transport " ++ choiceList .transport ++ "\n" ++
    "                        Transport mode (default: stdio)\n" ++
    "  --port PORT           HTTP port (only for http transport)\n" ++
    "  --preset " ++ choiceList .preset ++ "\n" ++
    "                        Pitch range preset (default: full MIDI range)\n" ++
    "  --config CONFIG       YAML engine config (overrides $CHUK_HARMONY_CONFIG)\n" ++
    "  --debug               Enable debug logging\n"

/-- What the program shows at an early end. -/
structure Farewell where
  /-- The number that the program ends with. -/
  exitCode : Nat
  output : String
  complaint : String
  deriving DecidableEq, Repr

/-- What the program shows at an ending. -/
def Ending.farewell : Ending → Farewell
  | .help => ⟨0, helpText, ""⟩
  | .misuse m => ⟨2, "", usage ++ programName ++ ": error: " ++ m.message ++ "\n"⟩

/-! ## The environment of the server -/

/-- Whether a text can stand in the environment. -/
def fitsEnvironment (s : String) : Bool := !s.toList.contains '\x00'

/-- The environment with what the settings put into it. -/
def Settings.environment (s : Settings) (env : Environment) : Except Failure Environment :=
  let path := s.configPath.filter (· ≠ "")
  let preset := s.preset.map Preset.name
  if path.all fitsEnvironment then .ok ⟨path.or env.configPath, preset.or env.preset⟩
  else Failure.raise (.invalid .fileName)

example :
    (read ["--pre", "piano", "--debug"]).toOption =
      some { preset := some .piano, debug := true } := by
  decide +kernel

example : read ["extra", "-h", "--debug=1"] = .error .help := by cbv

example : read ["--p", "1"] = .error (.misuse (.ambiguous "--p" ["--port", "--preset"])) := by
  cbv

end CommandLine

end Consonance
