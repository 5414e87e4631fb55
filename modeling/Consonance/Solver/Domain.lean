import Consonance.Pitch.Space

/-!
# Domains

A domain is the finite set of values that a variable may still take.  It is kept
as a list in ascending order of `Value.order`, without repetitions, so that two
domains meet in one pass over both.

Members are nearly always integers.  Other values are allowed as far as they can
be members of a set.  Of equal members of different kinds, such as `1` and the
truth value, a domain keeps one: the first one given, and where two domains meet
the one of the smaller domain.

A domain whose members have no common order can be used, and only cannot be
listed or shown (`toList`, `text`).
-/

namespace Consonance

/-- A finite set of values. -/
structure Domain where
  /-- The values in ascending order. -/
  values : List Value
  deriving Repr, Inhabited

namespace Domain

/-! ## Construction -/

/-- Whether each value comes before the next one. -/
def isAscending : List Value → Bool
  | [] => true
  | [_] => true
  | v :: w :: rest => v.order w == .lt && isAscending (w :: rest)

/-- The list without the values that are equal to the one before them. -/
def dropRepeats : List Value → List Value
  | [] => []
  | v :: rest => v :: dropRepeats' v rest
where
  /-- The same after a value that is kept already. -/
  dropRepeats' (kept : Value) : List Value → List Value
    | [] => []
    | w :: rest => if kept.order w == .eq then dropRepeats' kept rest else w :: dropRepeats' w rest

/-- The domain of the given values, the first of equal ones.  They must be fit to be
members of a set. -/
def ofMembers (values : List Value) : Domain :=
  if isAscending values then ⟨values⟩
  else ⟨dropRepeats (values.mergeSort fun v w => v.order w != .gt)⟩

def ofList (values : List Value) : Except Failure Domain := do
  values.forM Value.requireMember
  return ofMembers values

/-- The domain of the integers from one end to the other, both included. -/
def interval (lowest highest : Int) : Domain :=
  ⟨(PitchSpace.run lowest highest).map Value.int⟩

/-- A whole number that ends a range. -/
def wholeEnd (v : Value) : Except Failure Int :=
  match v.whole? with
  | some n => .ok n
  | none => .error (.mistyped (.notWhole v.kind))

/-- The domain of the integers between two values, both included. -/
def between (lowest highest : Value) : Except Failure Domain := do
  let past ← highest.add (.int 1)
  let first ← wholeEnd lowest
  return interval first ((← wholeEnd past) - 1)

/-! ## Observation -/

def isEmpty (d : Domain) : Bool := d.values.isEmpty

/-- The only value, if there is just one. -/
def single? (d : Domain) : Option Value :=
  match d.values with
  | [v] => some v
  | _ => none

def size (d : Domain) : Nat := d.values.length

/-- Whether a value is in the domain. -/
def contains (d : Domain) (v : Value) : Except Failure Bool := do
  v.requireMember
  return d.values.any v.same

/-- Fails unless the values have a common order. -/
def requireOrdered : List Value → Except Failure Unit
  | [] => .ok ()
  | [_] => .ok ()
  | v :: w :: rest => do
    let _ ← Value.holds .lt w v
    requireOrdered (w :: rest)

def toList (d : Domain) : Except Failure (List Value) := do
  requireOrdered d.values
  return d.values

/-- The least value. -/
def least (d : Domain) : Except Failure Value := do
  requireOrdered d.values
  match d.values.head? with
  | none => .error (.invalid (.emptyExtreme false))
  | some v => return v

def greatest (d : Domain) : Except Failure Value := do
  requireOrdered d.values
  match d.values.getLast? with
  | none => .error (.invalid (.emptyExtreme true))
  | some v => return v

/-- Fails unless the domain can be shown: it is, if it is empty or if its ends have a
difference. -/
def requireShown (d : Domain) : Except Failure Unit := do
  if !d.isEmpty then
    let width ← (← d.greatest).sub (← d.least)
    let _ ← width.add (.int 1)

def text (d : Domain) : Except Failure String := do
  d.requireShown
  return domainText (isContiguous d.values) d.values

/-- Whether two domains have the same values. -/
def same (d e : Domain) : Bool := Value.sameItems d.values e.values

/-! ## Operations -/

/-- The values of two ascending lists that are in both, taken from the first. -/
def meet : List Value → List Value → List Value
  | [], _ => []
  | v :: rest, others =>
    match others.dropWhile fun w => w.order v == .lt with
    | [] => []
    | w :: more => if v.order w == .eq then v :: meet rest more else meet rest (w :: more)

/-- The values that are in both domains.  They are taken from the smaller one, and
from the second one if both have the same size. -/
def intersect (d e : Domain) : Domain :=
  if d.size < e.size then ⟨meet d.values e.values⟩ else ⟨meet e.values d.values⟩

def filter (test : Value → Except Failure Bool) (d : Domain) : Except Failure Domain := do
  return ⟨← d.values.filterM test⟩

/-- Every value moved up by an offset. -/
def shift (offset : Value) (d : Domain) : Except Failure Domain := do
  return ofMembers (← d.values.mapM fun v => v.add offset)

/-- Every value taken away from a pivot. -/
def reflect (pivot : Value) (d : Domain) : Except Failure Domain := do
  return ofMembers (← d.values.reverse.mapM fun v => pivot.sub v)

example : (intersect (interval 0 4) (interval 3 9)).values.length = 2 := by decide +kernel

example : (interval 3 2).isEmpty = true := by decide +kernel

end Domain

end Consonance
