import Consonance.Server

/-!
# The program

Reads the command line, the environment and the configuration, and then answers the
requests on the standard input, one a line.  Files are written as soon as a request is
answered.

Only this module touches the outside.  What it shows and what it writes is decided in the
modules before it.
-/

namespace Consonance.Program

def environment : IO Environment := do
  return ⟨← IO.getEnv "CHUK_HARMONY_CONFIG", ← IO.getEnv "CHUK_HARMONY_PRESET"⟩

def configuration (env : Environment) : IO (Except Failure Config) := do
  match Config.source .nothing env with
  | .file path =>
    try
      return Config.ofText (← IO.FS.readFile path)
    catch _ =>
      return Failure.raise (.file .missing path)
  | source => return Config.ofSource {} source

/-- Writes the files that are not among the earlier ones. -/
def writeFiles (earlier now : Tool.Exports) : IO Unit := do
  for (l, content) in now.files do
    if !earlier.files.contains (l, content) then
      IO.FS.createDirAll Tool.exportDirectory.text
      IO.FS.writeBinFile l.text ⟨content.toArray⟩

/-- Answers lines until there are no more.  With `debug` set, each line is also shown on the
standard error. -/
partial def serve (debug : Bool) (s : Server) (input output : IO.FS.Stream) : IO Unit := do
  let line ← input.getLine
  if line.isEmpty then return
  if debug then IO.eprint line
  let (text, next) := s.answerLine line
  writeFiles s.files next.files
  output.putStrLn text
  output.flush
  serve debug next input output

/-- Runs the server with some settings. -/
def run (settings : CommandLine.Settings) : IO UInt32 := do
  let stderr ← IO.getStderr
  match settings.environment (← environment) with
  | .error f => stderr.putStrLn f.message; return 1
  | .ok env =>
    match ← configuration env with
    | .error f => stderr.putStrLn f.message; return 1
    | .ok config =>
      if settings.transport = .http then stderr.putStrLn "no listener for http"; return 1
      serve settings.debug ⟨config, {}⟩ (← IO.getStdin) (← IO.getStdout)
      return 0

end Consonance.Program

def main (words : List String) : IO UInt32 := do
  match Consonance.CommandLine.read words with
  | .ok settings => Consonance.Program.run settings
  | .error ending =>
    let farewell := ending.farewell
    (← IO.getStdout).putStr farewell.output
    (← IO.getStderr).putStr farewell.complaint
    return farewell.exitCode.toUInt32
