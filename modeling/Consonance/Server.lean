import Consonance.CommandLine
import Consonance.Json.Reader
import Consonance.Tool

/-!
# The server

A server answers requests one after the other.  It keeps its configuration and the files
that its tools have written.

A request is a JSON object with the name of a tool and its arguments.
-/

namespace Consonance

/-- A call of a tool. -/
structure Request where
  tool : Tool
  arguments : List (Value × Value)

namespace Request

def ofValue? : Value → Option Request
  | .record fields =>
    match Value.field? "tool" fields, (Value.field? "args" fields).getD (.record []) with
    | some (.text name), .record given => (Tool.ofName? name).map fun tool => ⟨tool, given⟩
    | _, _ => none
  | _ => none

def ofLine? (line : String) : Option Request := (Json.read line).bind ofValue?

end Request

/-- A server between two requests. -/
structure Server where
  config : Config
  files : Tool.Exports

namespace Server

/-- The server that some files and the environment make. -/
def start (env : Environment) (files : Store String) : Except Failure Server := do
  return ⟨← Config.load .nothing env files, files.map fun text => text.toUTF8.toList⟩

/-- Answers a request. -/
def answer (s : Server) (r : Request) : Except Failure (String × Server) := do
  let (text, files) ← Tool.call s.config s.files r.tool r.arguments
  return (text, { s with files })

/-- Answers some requests in their order. -/
def answerAll (s : Server) : List Request → Except Failure (List String × Server)
  | [] => .ok ([], s)
  | r :: rest => do
    let (text, s) ← s.answer r
    let (texts, s) ← s.answerAll rest
    return (text :: texts, s)

/-- The answer to a line that is no request. -/
def refusal : String := Tool.answer (.error (.mistyped .arguments))

/-- Answers a line.  A call whose arguments do not fit leaves the server as it was. -/
def answerLine (s : Server) (line : String) : String × Server :=
  match Request.ofLine? line with
  | some r =>
    match s.answer r with
    | .ok answered => answered
    | .error f => (Tool.answer (.error f), s)
  | none => (refusal, s)

end Server

end Consonance
