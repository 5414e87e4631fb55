import Consonance.Interval.Basic
import Consonance.Value.Atom

/-!
# Values

A caller may hand in any datum where a pitch, a name or a distance is expected:
the arguments of a query come from JSON and are not checked before a rule looks
at them.  `Value` holds such a datum.  Beside the kinds of JSON there are two of
music, pitch classes and intervals, and those that only a document can hold:
pairs, sets and atoms.

Four kinds are numbers (`Quantity`), and three of them whole numbers.  `quantity?`
and `whole?` read them.  Numbers of different kinds are equal when their values are,
and are still told apart when they are shown.
-/

namespace Consonance

open Number (Binary64)

/-- A datum. -/
inductive Value where
  | nothing
  | truth (b : Bool)
  | int (n : Int)
  | float (x : Binary64)
  | text (s : String)
  | list (items : List Value)
  /-- Values under keys, in the order of their first mention. -/
  | record (fields : List (Value × Value))
  | pitchClass (c : PitchClass)
  | interval (i : Interval)
  | pair (first second : Value)
  | members (items : List Value)
  /-- A datum without parts that only documents have. -/
  | atom (a : Atom)
  deriving Repr, Inhabited

namespace Value

/-- The kind of a value, as messages call it. -/
def kind : Value → String
  | .nothing => "NoneType"
  | .truth _ => "bool"
  | .int _ => "int"
  | .float _ => "float"
  | .text _ => "str"
  | .list _ => "list"
  | .record _ => "dict"
  | .pitchClass _ => "PitchClass"
  | .interval _ => "Interval"
  | .pair _ _ => "tuple"
  | .members _ => "set"
  | .atom a => a.kind

def ofQuantity : Quantity → Value
  | .int n => .int n
  | .truth b => .truth b
  | .pitchClass c => .pitchClass c
  | .float x => .float x

/-- The number that a value is, if it is one. -/
def quantity? : Value → Option Quantity
  | .int n => some (.int n)
  | .truth b => some (.truth b)
  | .pitchClass c => some (.pitchClass c)
  | .float x => some (.float x)
  | _ => none

/-- The whole number that a value is, if it is one. -/
def whole? (v : Value) : Option Int := v.quantity?.bind Quantity.whole?

def isNumber (v : Value) : Bool := v.quantity?.isSome

/-- The floating-point number nearest to a number, unless that is beyond them. -/
def nearestFloat? : Value → Option Binary64
  | .float x => some x
  | v => v.whole?.bind Binary64.ofInt?

def exactValue? (v : Value) : Option Binary64.Exact := v.quantity?.bind Quantity.exactValue?

/-- Whether a value counts as given: zero, the empty ones and the absent one do not. -/
def isGiven : Value → Bool
  | .nothing => false
  | .truth b => b
  | .int n => n != 0
  | .float x => !x.isZero
  | .text s => s != ""
  | .list items => !items.isEmpty
  | .record fields => !fields.isEmpty
  | .pitchClass c => c.toInt != 0
  | .interval _ => true
  | .pair _ _ => true
  | .members items => !items.isEmpty
  | .atom a => a.isGiven

/-- The value under a text key of a record. -/
def field? (key : String) : List (Value × Value) → Option Value
  | [] => none
  | (k, v) :: rest =>
    match k with
    | .text s => if s = key then some v else field? key rest
    | _ => field? key rest

@[simp] theorem quantity?_ofQuantity (q : Quantity) : (ofQuantity q).quantity? = some q := by
  cases q <;> rfl

@[simp] theorem whole?_int (n : Int) : (Value.int n).whole? = some n := rfl

end Value

end Consonance
