/-!
# Paths

A path is a list of names, and is either absolute or taken from the working directory.
The empty name and the single dot mean nothing in a path and are left out.  The double
dot stays, since what it means depends on the directories there are.

An absolute path starts with a slash, and exactly two of them are kept as they are.  More
than two count as one.

`Location` is where a path leads: the double dots are gone, and each took the name before
it along.  They may lead above the working directory, where nothing has a name.
-/

namespace Consonance

/-- A path in its plain form. -/
structure Path where
  /-- The number of slashes it starts with: none, one or two. -/
  slashes : Nat
  names : List String
  deriving DecidableEq, Repr

namespace Path

/-- The pieces of a text between slashes. -/
def pieces : List Char → List (List Char)
  | [] => [[]]
  | c :: rest =>
    match pieces rest with
    | [] => [[c]]
    | piece :: others => if c = '/' then [] :: piece :: others else (c :: piece) :: others

/-- Whether a piece is a name that means something. -/
def isName (piece : List Char) : Bool := piece != [] && piece != ['.']

def ofText (s : String) : Path :=
  let slashes := (s.toList.takeWhile (· == '/')).length
  ⟨if slashes ≤ 2 then slashes else 1, ((pieces s.toList).filter isName).map String.ofList⟩

/-- Whether a path starts at the root. -/
def absolute (p : Path) : Bool := 0 < p.slashes

/-- A path taken from another one.  An absolute path stands for itself. -/
def join (base p : Path) : Path :=
  if p.absolute then p else ⟨base.slashes, base.names ++ p.names⟩

def text (p : Path) : String :=
  if p.slashes = 0 ∧ p.names = [] then "."
  else String.ofList (List.replicate p.slashes '/') ++ "/".intercalate p.names

example : (ofText "output/.//a").text = "output/a" := by decide +kernel

example : ((ofText "output").join (ofText "../x")).text = "output/../x" := by decide +kernel

example : (ofText "//a").text = "//a" ∧ (ofText "///a").text = "/a" := by decide +kernel

end Path

/-- Where a path leads. -/
structure Location where
  /-- Whether it is found from the root. -/
  absolute : Bool
  /-- The number of directories above the working directory. -/
  above : Nat
  names : List String
  deriving DecidableEq, Repr

namespace Location

/-- Where a path starts. -/
def start (p : Path) : Location := ⟨p.absolute, 0, []⟩

def step (l : Location) (name : String) : Location :=
  if name = ".." then
    if l.names.isEmpty then { l with above := if l.absolute then 0 else l.above + 1 }
    else { l with names := l.names.dropLast }
  else { l with names := l.names ++ [name] }

/-- Where a path leads, if all its directories exist. -/
def ofPath (p : Path) : Location := p.names.foldl step (start p)

/-- The text of the shortest path that leads to a location. -/
def text (l : Location) : String :=
  Path.text ⟨if l.absolute then 1 else 0, List.replicate l.above ".." ++ l.names⟩

/-- Whether a location lies inside a directory of the working directory. -/
def isInside (l : Location) (directory : List String) : Bool :=
  !l.absolute && l.above == 0 && directory.isPrefixOf l.names && directory.length < l.names.length

example : ofPath (Path.ofText "output/../x.mid") = ⟨false, 0, ["x.mid"]⟩ := by decide +kernel

end Location

end Consonance
