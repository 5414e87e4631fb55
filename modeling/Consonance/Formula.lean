import Consonance.Relation.Chord
import Consonance.Relation.Note
import Consonance.Solver.Search

/-!
# Formulas

A formula is a goal written down: the primitive goals, their combinations and the
musical relations, with the arguments as the caller gave them.

`Formula.build` makes the goal.  It reads every name before anything runs, from left to
right and the inner formulas first.  So an unknown name is a failure of the query, even
where the search would never come to it.

The absent value stands for an open argument of a relation.  `build` puts a fresh
variable there, and counts the variables it makes.
-/

namespace Consonance

/-- A test of a value that can be written down. -/
inductive Condition where
  /-- The remainder by a modulus is the given one. -/
  | remainder (modulus residue : Value)
  | atLeast (v : Value)
  | atMost (v : Value)
  | never
  | always
  deriving Repr

def Condition.test : Condition → Value → Except Failure Bool
  | .remainder modulus residue, v => do return (← v.mod modulus).equal residue
  | .atLeast w, v => v.holds .ge w
  | .atMost w, v => v.holds .le w
  | .never, _ => .ok false
  | .always, _ => .ok true

/-- A restriction that can be written down. -/
inductive Admission where
  | interval (lowest highest : Value)
  | domain (values : List Value)
  /-- Some values, looked at one by one. -/
  | values (values : List Value)
  | passing (condition : Condition)
  deriving Repr

def Admission.allowed : Admission → Except Failure Allowed
  | .interval lowest highest => do return .domain (← Domain.between lowest highest)
  | .domain vs => do return .domain (← Domain.ofList vs)
  | .values vs => .ok (.values vs)
  | .passing c => .ok (.passing c.test)

/-- A goal that is written down. -/
inductive Formula where
  | succeed
  | fail
  | eq (a b : Term)
  /-- A term is among the admitted values. -/
  | inDomain (t : Term) (admission : Admission)
  /-- A term less another one is a third. -/
  | difference (a b d : Term)
  /-- The terms take each value they may take. -/
  | label (terms : List Term)
  | conjoin (parts : List Formula)
  | disjoin (parts : List Formula)
  | conde (clauses : List (List Formula))
  /-- A class, an octave and an absolute pitch. -/
  | note (pitchClass octave pitch : Term)
  | interval (distance first second : Term)
  /-- A pitch a distance above another one. -/
  | above (distance low high : Term)
  /-- A major third and a perfect fifth from a root. -/
  | majorTriad (root third fifth : Term)
  /-- A minor third and a perfect fifth from a root. -/
  | minorTriad (root third fifth : Term)
  /-- The voices of a chord, after its root if there are four pitches. -/
  | chord (quality : Term) (pitches : List Term)
  /-- The first term is the second one times a factor plus a summand. -/
  | scaled (result source : Term) (factor summand : Value)
  /-- The first formula if the term is known when it is reached, and the second if not. -/
  | ifKnown (t : Term) (known unknown : Formula)

/-- A computation that may make fresh variables.  It carries the number of the next one. -/
abbrev Builder := StateT Nat (Except Failure)

namespace Builder

def fresh : Builder Term := fun n => .ok (.var (.fresh n), n + 1)

/-- Several fresh variables. -/
def freshAll : (count : Nat) → Builder (List Term)
  | 0 => pure []
  | count + 1 => do
    let t ← fresh
    return t :: (← freshAll count)

/-- An argument, or a fresh variable if it is open. -/
def openOr (t : Term) : Builder Term :=
  match t with
  | .val .nothing => fresh
  | t => pure t

/-- A pitch class argument.  A name becomes the class it names. -/
def pitchClass (t : Term) : Builder Term :=
  match t with
  | .val .nothing => fresh
  | .var _ | .val (.pitchClass _) => pure t
  | .val (.text s) => do return .val (.pitchClass (← PitchClass.ofValue (.text s)))
  | .val v => Failure.raise (.unknownPitchClass (.val v))

/-- A distance argument.  A name becomes the distance it names. -/
def distance (t : Term) : Builder Term :=
  match t with
  | .val .nothing => fresh
  | .var _ => pure t
  | .val v => do return .val (← resolveDistance v)

def note (c octave pitch : Term) : Builder Goal := do
  let c ← pitchClass c
  let octave ← openOr octave
  return Relation.note c octave (← openOr pitch)

def interval (d first second : Term) : Builder Goal := do
  let d ← distance d
  let first ← openOr first
  return Relation.interval d first (← openOr second)

/-- The goal for one pitch above another. -/
def above (d low high : Term) : Builder Goal := do
  let d ← distance d
  let low ← openOr low
  return Relation.above d low (← openOr high)

/-- The goal for a triad whose tones are spread around its root. -/
def spread (third fifth : Int) (root thirdTone fifthTone : Term) : Builder Goal := do
  let lower ← interval (.int third) root thirdTone
  return Goal.conjoin [lower, ← interval (.int fifth) root fifthTone]

/-- The goal for a chord with a root and three voices. -/
def voicedChord (quality : ChordQuality) (root low middle high : Term) : Builder Goal := do
  let root ← openOr root
  let low ← openOr low
  let middle ← openOr middle
  Relation.chord quality root low middle (← openOr high)

/-- The goal for a chord.  The root is open if only the voices are given. -/
def chord (quality : Term) (pitches : List Term) : Builder Goal := do
  let quality ← ChordQuality.ofTerm quality
  match pitches with
  | [low, middle, high] => voicedChord quality (.val .nothing) low middle high
  | [root, low, middle, high] => voicedChord quality root low middle high
  | pitches => throw (Failure.mistyped (.voiceCount pitches.length))

end Builder

namespace Goal

/-- A term is another one times a factor plus a summand.  The other one must be known. -/
def scaled (result source : Term) (factor summand : Value) : Goal :=
  project fun s =>
    match s.walk source with
    | .var _ => .error (.mistyped (.operands .mul "LogicVar" factor.kind))
    | .val v => do return eq result (.val (← (← v.mul factor).add summand))

/-- The first goal if the term is known, and the second if not. -/
def ifKnown (t : Term) (known unknown : Goal) : Goal :=
  project fun s => .ok (if (s.walk t).isVar then unknown else known)

end Goal

namespace Formula

mutual

/-- The goal that a formula writes down. -/
def build : Formula → Builder Goal
  | .succeed => pure Goal.succeed
  | .fail => pure Goal.fail
  | .eq a b => pure (.eq a b)
  | .inDomain t admission => do return .inDomain t (← admission.allowed)
  | .difference a b d => pure (.difference a b d)
  | .label terms => pure (.label terms)
  | .conjoin parts => do return Goal.conjoin (← buildAll parts)
  | .disjoin parts => do return Goal.disjoin (← buildAll parts)
  | .conde clauses => do return Goal.conde (← buildClauses clauses)
  | .note c octave pitch => Builder.note c octave pitch
  | .interval d first second => Builder.interval d first second
  | .above d low high => Builder.above d low high
  | .majorTriad root third fifth => Builder.spread 4 7 root third fifth
  | .minorTriad root third fifth => Builder.spread 3 7 root third fifth
  | .chord quality pitches => Builder.chord quality pitches
  | .scaled result source factor summand => pure (.scaled result source factor summand)
  | .ifKnown t known unknown => do
    let known ← build known
    return .ifKnown t known (← build unknown)

/-- The goals of formulas, from left to right. -/
def buildAll : List Formula → Builder (List Goal)
  | [] => pure []
  | f :: rest => do
    let g ← build f
    return g :: (← buildAll rest)

/-- The goals of clauses, from left to right. -/
def buildClauses : List (List Formula) → Builder (List (List Goal))
  | [] => pure []
  | c :: rest => do
    let goals ← buildAll c
    return goals :: (← buildClauses rest)

end

/-- The goal of a formula that makes its fresh variables from the first number on. -/
def goal (f : Formula) : Except Failure Goal := do return (← f.build.run 0).1

end Formula

/-- The rows of a formula up to a limit. -/
def Formula.run (f : Formula) (query : List Term) (limit : Value) (space : PitchSpace) :
    Except Failure (List Row) := do
  Consonance.run (← f.goal) query limit space

end Consonance
