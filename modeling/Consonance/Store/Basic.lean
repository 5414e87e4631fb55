import Consonance.Failure
import Consonance.Store.Path

/-!
# Stores

A store holds files in the directories of the working directory.  Files are found by
their location, and so one file can have many paths.

A path is followed name by name.  Each name but the last must lead to a directory, and no
name may be too long.  Of the directories outside the working directory only the ones
above it and a few at the root are known.
-/

namespace Consonance

/-- Files in directories. -/
structure Store (α : Type) where
  directories : List (List String) := []
  /-- The files, in the order in which they came. -/
  files : List (Location × α) := []

namespace Store

variable {α : Type}

def nameLimit : Nat := 255

def pathLimit : Nat := 4095

/-- The directories at the root that are known. -/
def rootDirectories : List (List String) := [[], ["tmp"]]

/-- Whether a location is a known directory. -/
def isDirectory (s : Store α) (l : Location) : Bool :=
  if l.absolute then rootDirectories.contains l.names
  else l.names.isEmpty || (l.above == 0 && s.directories.contains l.names)

/-- The content of the file at a location. -/
def content? (s : Store α) (l : Location) : Option α :=
  (s.files.find? fun file => file.1 == l).map Prod.snd

/-- The location that some names lead to from another one. -/
def follow (s : Store α) (l : Location) : List String → Except FileFault Location
  | [] => .ok l
  | name :: rest =>
    if s.isDirectory l then
      if nameLimit < name.utf8ByteSize then .error .nameLength else s.follow (l.step name) rest
    else if (s.content? l).isSome then .error .notDirectory
    else .error .missing

/-- The location of a path that is to be opened. -/
def locate (s : Store α) (p : Path) : Except Failure Location := do
  if p.text.toList.contains '\x00' then Failure.raise (.invalid .fileName)
  if pathLimit < p.text.utf8ByteSize then Failure.raise (.file .nameLength p.text)
  match s.follow (.start p) p.names with
  | .ok l => if s.isDirectory l then Failure.raise (.file .isDirectory p.text) else return l
  | .error fault => Failure.raise (.file fault p.text)

/-- The content of the file that a path leads to. -/
def read (s : Store α) (p : Path) : Except Failure α := do
  match s.content? (← s.locate p) with
  | some content => return content
  | none => Failure.raise (.file .missing p.text)

/-- Puts a file where a location is, in the place of an earlier one. -/
def put (l : Location) (content : α) : List (Location × α) → List (Location × α)
  | [] => [(l, content)]
  | file :: rest => if file.1 = l then (l, content) :: rest else file :: put l content rest

/-- The store after a file is written. -/
def write (s : Store α) (p : Path) (content : α) : Except Failure (Store α) := do
  return { s with files := put (← s.locate p) content s.files }

def addDirectory (s : Store α) (names : List String) : Store α :=
  if s.directories.contains names then s else { s with directories := s.directories ++ [names] }

/-- Makes a directory below the working directory, unless a file has its place. -/
def makeDirectory (s : Store α) (p : Path) : Except Failure (Store α) :=
  if (s.content? (.ofPath p)).isSome then Failure.raise (.file .taken p.text)
  else .ok (s.addDirectory p.names)

/-- The directories that a file of some names needs, from the outermost one on. -/
def parents : List String → List (List String)
  | [] => []
  | [_] => []
  | name :: rest => [name] :: (parents rest).map (name :: ·)

/-- A store of files in the working directory, with the directories they need. -/
def ofFiles (files : List (String × α)) : Store α :=
  files.foldl (fun s file =>
    let l := Location.ofPath (Path.ofText file.1)
    let s := (parents l.names).foldl addDirectory s
    { s with files := put l file.2 s.files }) {}

/-- The store with every content changed by a function. -/
def map {β : Type} (f : α → β) (s : Store α) : Store β :=
  ⟨s.directories, s.files.map fun file => (file.1, f file.2)⟩

/-- The files inside a directory, by their paths. -/
def filesIn (s : Store α) (directory : List String) : List (String × α) :=
  (s.files.filter fun file => file.1.isInside directory).map fun file =>
    (file.1.text, file.2)

theorem content?_put_self (l : Location) (content : α) (files : List (Location × α)) :
    ((put l content files).find? fun file => file.1 == l).map Prod.snd = some content := by
  induction files with
  | nil => simp [put]
  | cons file rest ih =>
    by_cases h : file.1 = l
    · simp [put, h]
    · simpa [put, h] using ih

end Store

end Consonance
