import Consonance.Solver.Domain

/-!
# Solver states

A state is what one branch of a search knows: bindings of variables, a domain for
some of them, and differences that are not settled yet.

*Bindings.*  A substitution lists its bindings, the latest first.  A binding is
made for a variable that is open under the earlier ones, and its target is read
under them as well.  So walking a term goes through the bindings once, from the
earliest to the latest, and there is nothing to loop over: `walk` is structural.

*Domains.*  A binding of a variable with a domain checks the value against it, or
hands the domain on when the target is another variable.  The entry of the bound
variable stays.  An undefined number gets a mark when it is bound, and is the same
from then on wherever the variable is looked up.

*Differences.*  A difference `a - b = d` with two known parts gives the third.  With
one known part it narrows the domains of the other two against each other, and
with none it waits (`State.settle`).

The functions here make one step.  None of them settles the other differences
again afterwards.  That is `State.propagate`.
-/

namespace Consonance

/-! ## Substitutions -/

/-- Bindings of variables, the latest first. -/
abbrev Substitution := List (Var × Term)

namespace Substitution

/-- The value of a term, or the open variable that stands for it. -/
def walk : Substitution → Term → Term
  | [], t => t
  | (x, target) :: earlier, t =>
    match walk earlier t with
    | .var y => if y = x then target else .var y
    | .val v => .val v

/-- The binding that makes two walked terms equal, if they are not equal yet.  The
first of them is bound if it is a variable. -/
def binding? (a b : Term) : Except Failure (Option (Var × Term)) :=
  match a, b with
  | .var x, .var y => .ok (if x = y then none else some (x, .var y))
  | .var x, .val v => .ok (some (x, .val v))
  | .val v, .var y => .ok (some (y, .val v))
  | .val v, .val w =>
    if v.same w then .ok none else Failure.raise (.deadEnd (.differentValues v w))

/-- The substitution that makes two terms equal.  It is the same one if they were
equal already. -/
def unify (s : Substitution) (a b : Term) : Except Failure Substitution := do
  match ← binding? (walk s a) (walk s b) with
  | none => return s
  | some new => return new :: s

theorem walk_val (s : Substitution) (v : Value) : walk s (.val v) = .val v := by
  induction s with
  | nil => rfl
  | cons b earlier ih => simp [walk, ih]

end Substitution

/-! ## States -/

/-- A difference between terms: minuend less subtrahend is the distance. -/
structure Difference where
  minuend : Term
  subtrahend : Term
  distance : Term
  deriving Repr

/-- What a restriction lets a term be. -/
inductive Allowed where
  | domain (d : Domain)
  | values (vs : List Value)
  | passing (test : Value → Except Failure Bool)

/-- What one branch of a search knows. -/
structure State where
  substitution : Substitution
  /-- The domains, one entry for each variable that has had one. -/
  domains : List (Var × Domain)
  /-- The differences that are not settled, oldest first. -/
  differences : List Difference
  space : PitchSpace

namespace State

/-- Nothing is known. -/
def empty (space : PitchSpace) : State := ⟨[], [], [], space⟩

/-- The value of a term, or the open variable that stands for it. -/
def walk (s : State) (t : Term) : Term := s.substitution.walk t

def stored? (s : State) (x : Var) : Option Domain := s.domains.lookup x

/-- The domain of the open variable that stands for a term. -/
def domain? (s : State) (t : Term) : Option Domain :=
  match s.walk t with
  | .var x => s.stored? x
  | .val _ => none

/-- The domain of all pitches of the space. -/
def spaceDomain (s : State) : Domain := .interval s.space.lowest s.space.highest

/-- Puts an entry for a variable, in the place of the old one if there is one. -/
def putEntry (x : Var) (d : Domain) : List (Var × Domain) → List (Var × Domain)
  | [] => [(x, d)]
  | (y, e) :: rest => if y = x then (x, d) :: rest else (y, e) :: putEntry x d rest

/-- The state with a domain stored for a variable. -/
def put (s : State) (x : Var) (d : Domain) : State := { s with domains := putEntry x d s.domains }

/-- The state with one binding more.  The number of bindings marks an undefined number that
has no mark yet.  Zero is no mark, and one is that of the undefined numbers in inputs. -/
def addBinding (s : State) (x : Var) (target : Term) : State :=
  let target := match target with
    | .val (.float (.undefined 0)) => .val (.float (.undefined (s.substitution.length + 2)))
    | target => target
  { s with substitution := (x, target) :: s.substitution }

/-! ## Steps -/

end State

namespace Allowed

/-- The domain that a restriction stands for.  A test is applied to the values of a
base. -/
def toDomain (base : Domain) : Allowed → Except Failure Domain
  | .domain d => .ok d
  | .values vs => Domain.ofList vs
  | .passing test => base.filter test

/-- Whether a restriction lets a term have a value. -/
def admits (v : Value) : Allowed → Except Failure Bool
  | .domain d => d.contains v
  | .values vs => do (← Domain.ofList vs).contains v
  | .passing test => test v

end Allowed

namespace State

/-- Binds a variable to a value, which must be in its domain. -/
def bindValue (s : State) (x : Var) (v : Value) : Except Failure State := do
  match s.stored? x with
  | none => return s.addBinding x (.val v)
  | some d =>
    if ← d.contains v then return s.addBinding x (.val v)
    if v.quotedFault?.isNone then d.requireShown
    Failure.raise (.deadEnd (.notInDomain v d.values))

/-- Binds a variable to another one, which takes over its domain. -/
def bindVar (s : State) (x y : Var) : Except Failure State :=
  match s.stored? x with
  | none => .ok (s.addBinding x (.var y))
  | some d =>
    let merged := match s.stored? y with
      | none => d
      | some e => d.intersect e
    if merged.isEmpty then Failure.raise (.deadEnd (.noSharedValue x y))
    else .ok ((s.put y merged).addBinding x (.var y))

def equate (s : State) (a b : Term) : Except Failure State := do
  match ← Substitution.binding? (s.walk a) (s.walk b) with
  | none => return s
  | some (x, .val v) => s.bindValue x v
  | some (x, .var y) => s.bindVar x y

/-- Restricts an open variable.  A restriction that leaves one value binds the
variable to it. -/
def narrowVar (s : State) (x : Var) (allowed : Allowed) : Except Failure State := do
  match s.stored? x with
  | none => settleDomain (← allowed.toDomain s.spaceDomain)
  | some current =>
    let narrowed := current.intersect (← allowed.toDomain current)
    if !narrowed.isEmpty && narrowed.same current then return s
    settleDomain narrowed
where
  /-- Stores a domain for the variable, and binds the variable to the only value of one. -/
  settleDomain (d : Domain) : Except Failure State :=
    if d.isEmpty then Failure.raise (.deadEnd (.noValueLeft x))
    else
      match d.single? with
      | none => .ok (s.put x d)
      | some v => .ok ((s.put x d).addBinding x (.val v))

/-- Restricts a term. -/
def narrow (s : State) (t : Term) (allowed : Allowed) : Except Failure State :=
  match s.walk t with
  | .var x => s.narrowVar x allowed
  | .val v => do
    if ← allowed.admits v then return s
    Failure.raise (.deadEnd (.notAdmitted v))

/-- Restricts a term to a domain moved by `move`, if there is such a domain. -/
def narrowTo (s : State) (t : Term) (source : Option Domain)
    (move : Domain → Except Failure Domain) : Except Failure State :=
  match source with
  | none => .ok s
  | some d => do s.narrow t (.domain (← move d))

/-- Works out one difference as far as the state allows.  The flag says that nothing
is left to do for it. -/
def settle (s : State) (c : Difference) : Except Failure (State × Bool) := do
  let a := s.walk c.minuend
  let b := s.walk c.subtrahend
  let d := s.walk c.distance
  match a, b, d with
  | .val m, .val n, .val k =>
    if (← m.sub n).equal k then return (s, true)
    Failure.raise (.deadEnd (.wrongDifference m n k))
  | .val m, .val n, d => return (← s.equate d (.val (← m.sub n)), true)
  | .val m, b, .val k => return (← s.equate b (.val (← m.sub k)), true)
  | a, .val n, .val k => return (← s.equate a (.val (← n.add k)), true)
  | .var _, .var _, .val k =>
    let domainA := s.domain? a
    let domainB := s.domain? b
    let s ← s.narrowTo a domainB fun e => e.shift k
    return (← s.narrowTo b domainA fun e => do e.shift (← k.neg), false)
  | .val m, .var _, .var _ =>
    let domainB := s.domain? b
    let domainD := s.domain? d
    let s ← s.narrowTo b domainD fun e => e.reflect m
    return (← s.narrowTo d domainB fun e => e.reflect m, false)
  | .var _, .val n, .var _ =>
    let domainA := s.domain? a
    let domainD := s.domain? d
    let s ← s.narrowTo a domainD fun e => e.shift n
    return (← s.narrowTo d domainA fun e => do e.shift (← n.neg), false)
  | .var _, .var _, .var _ => return (s, false)

/-- The values that an open or known term may take, ascending.  A variable without a
domain ranges over the pitch space. -/
def candidates (s : State) (t : Term) : Except Failure (List Value) :=
  match s.walk t with
  | .val v => .ok [v]
  | .var x => ((s.stored? x).getD s.spaceDomain).toList

end State

end Consonance
