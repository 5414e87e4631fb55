import Consonance.Yaml.Document

/-!
# Reading YAML

A text holds at most one document.  Its line ends are unified first, and a character that no
document may hold makes it malformed.
-/

namespace Consonance.Yaml

/-- Whether a character can stand in a document. -/
def isAllowed (c : Char) : Bool :=
  let n := c.toNat
  n == 0x09 || n == 0x0A || n == 0x0D || (0x20 ≤ n && n ≤ 0x7E) || n == 0x85 ||
    (0xA0 ≤ n && n ≤ 0xFFFD) ||
    0x10000 ≤ n

/-- The text with a line feed for each line end of another system. -/
def unifyLines : List Char → List Char
  | [] => []
  | '\r' :: '\n' :: rest => '\n' :: unifyLines rest
  | c :: rest => (if c = '\r' then '\n' else c) :: unifyLines rest

/-- The document in a text, if there is one. -/
def read (s : String) : Except Failure (Option Document) := do
  let cs := unifyLines s.toList
  if !cs.all isAllowed then malformed
  else
    match ← graphOf cs with
    | some g => return some (← Document.ofGraph g)
    | none => return none

/-- The value of the document in a text.  The value of each of its fields goes as deep as is
said. -/
def readValue (s : String) (depthOf : Value → Nat) : Except Failure Value := do
  match ← read s with
  | some d => return d.value depthOf
  | none => return .nothing

example : (readValue "a: [1, 'b']\n" fun _ => 9).toOption.map Value.quoted =
    some "\x7b'a': [1, 'b']\x7d" := by
  decide +kernel

end Consonance.Yaml
