import Consonance.Failure

/-!
# Equality and order of values

Two numbers are equal when they have the same exact value, whatever their kinds.
Texts, intervals and the absent value are equal only to their own kind.  Lists
are compared item by item and records key by key, in any order of the keys.

An undefined number is not equal to itself and still *the same*.  The items of
collections, the members of sets and the two sides of a unification are compared
by `Value.same`.  Everything else is compared by `Value.equal`.

Numbers are ordered by value, texts by code points and intervals by size.  No
other two values have an order (`Value.holds`).

Sets of values need a total order all the same.  `Value.order` puts numbers
first, then intervals, then texts, then the absent value.  It agrees with
sameness on all values that can be members of a set.  Lists, records and sets
cannot be (`requireMember`).
-/

namespace Consonance.Value

open Number (Binary64)

/-! ## Equality -/

/-- Whether two values of different shape, or without parts, are equal. -/
def equalAtoms (a b : Value) : Bool :=
  match a, b with
  | .int m, .int n => m == n
  | .text s, .text t => s == t
  | .nothing, .nothing => true
  | .interval i, .interval j => i.equal j
  | .atom x, .atom y => x.equal y
  | a, b =>
    match a.quantity?, b.quantity? with
    | some p, some q => p.equal q
    | _, _ => false

/-- Whether two values are one and the same undefined number. -/
def sameUndefined (a b : Value) : Bool :=
  match a, b with
  | .float (.undefined m), .float (.undefined n) => m == n && m != 0
  | _, _ => false

mutual

def equal : Value → Value → Bool
  | .list xs, b =>
    match b with
    | .list ys => sameItems xs ys
    | _ => false
  | .record xs, b =>
    match b with
    | .record ys => xs.length == ys.length && sameFields xs ys
    | _ => false
  | .pair x y, b =>
    match b with
    | .pair z w => (sameUndefined x z || equal x z) && (sameUndefined y w || equal y w)
    | _ => false
  | .members xs, b =>
    match b with
    | .members ys => xs.length == ys.length && areAmong xs ys
    | _ => false
  | a, b => equalAtoms a b

/-- Whether two lists have the same items. -/
def sameItems : List Value → List Value → Bool
  | [], ys => ys.isEmpty
  | x :: xs, ys =>
    match ys with
    | [] => false
    | y :: rest => (sameUndefined x y || equal x y) && sameItems xs rest

/-- Whether every field of the first record is one of the second. -/
def sameFields : List (Value × Value) → List (Value × Value) → Bool
  | [], _ => true
  | (k, v) :: xs, ys =>
    ys.any (fun field =>
      (sameUndefined k field.1 || equal k field.1) &&
        (sameUndefined v field.2 || equal v field.2)) &&
      sameFields xs ys

/-- Whether every value of the first list is in the second. -/
def areAmong : List Value → List Value → Bool
  | [], _ => true
  | x :: xs, ys => ys.any (fun y => sameUndefined x y || equal x y) && areAmong xs ys

end

/-- Whether two values are equal, or one and the same undefined number. -/
def same (a b : Value) : Bool := sameUndefined a b || equal a b

@[simp] theorem equal_int (m n : Int) : equal (.int m) (.int n) = (m == n) := by
  simp [equal, equalAtoms]

@[simp] theorem same_int (m n : Int) : same (.int m) (.int n) = (m == n) := by
  simp [same, sameUndefined]

/-! ## Order -/

/-- Whether a relation holds between two intervals.  All relations go back to less and equal,
so that an undefined size counts as greater. -/
def holdsOfIntervals (c : Comparison) (i j : Interval) : Bool :=
  match i.semitones.exactValue?, j.semitones.exactValue? with
  | some x, some y => c.admits (x.order y)
  | _, _ => c == .gt || c == .ge

/-- Whether a relation holds between two values.  It never holds of an undefined
number. -/
def holds (c : Comparison) (a b : Value) : Except Failure Bool :=
  match a, b with
  | .int m, .int n => .ok (c.admits (compare m n))
  | .text s, .text t => .ok (c.admits (compare s t))
  | .interval i, .interval j => .ok (holdsOfIntervals c i j)
  | a, b =>
    match a.quantity?, b.quantity? with
    | some p, some q =>
      match p.exactValue?, q.exactValue? with
      | some x, some y => .ok (c.admits (x.order y))
      | _, _ => .ok false
    | _, _ => .error (.mistyped (.unordered c a.kind b.kind))

/-- Whether a value lies in a closed range of integers.  The upper end is looked at
only if the value reaches the lower one. -/
def within (lowest highest : Int) (v : Value) : Except Failure Bool := do
  if ← holds .le (.int lowest) v then holds .le v (.int highest) else return false

/-- The order of numbers in sets.  The undefined ones come last, by their marks, and one
without a mark is before all that it is compared with. -/
def orderNumbers (p q : Quantity) : Ordering :=
  match p.exactValue?, q.exactValue? with
  | some x, some y => x.order y
  | some _, none => .lt
  | none, some _ => .gt
  | none, none =>
    match p, q with
    | .float (.undefined m), .float (.undefined n) => if m = 0 then .lt else compare m n
    | _, _ => .eq

/-- The place of a kind of value in the order of set members. -/
def rank : Value → Nat
  | .interval _ => 1
  | .text _ => 2
  | .nothing => 3
  | .atom _ => 4
  | .pair _ _ => 5
  | .list _ => 6
  | .record _ => 6
  | .members _ => 6
  | _ => 0

/-- The order of set members without parts. -/
def orderAtoms (a b : Value) : Ordering :=
  match a, b with
  | .int m, .int n => compare m n
  | .text s, .text t => compare s t
  | .interval i, .interval j => orderNumbers i.semitones j.semitones
  | .atom x, .atom y => if x.equal y then .eq else compare x.text y.text
  | a, b =>
    match a.quantity?, b.quantity? with
    | some p, some q => orderNumbers p q
    | _, _ => compare a.rank b.rank

def order : Value → Value → Ordering
  | .pair x y, b =>
    match b with
    | .pair z w => (order x z).then (order y w)
    | b => compare (Value.pair x y).rank b.rank
  | a, b => orderAtoms a b

@[simp] theorem order_int (m n : Int) : order (.int m) (.int n) = compare m n := by
  simp [order, orderAtoms]

/-- Fails for the values that cannot be members of a set. -/
def requireMember : Value → Except Failure Unit
  | .list _ => .error (.mistyped (.unhashable "list"))
  | .record _ => .error (.mistyped (.unhashable "dict"))
  | .members _ => .error (.mistyped (.unhashable "set"))
  | .pair a b => do
    requireMember a
    requireMember b
  | .atom (.again isRecord) => .error (.mistyped (.unhashable (Atom.again isRecord).kind))
  | _ => .ok ()

/-! ## Elements -/

/-- A text by the numbers of its characters. -/
def ofCodes (codes : List Nat) : Value :=
  if codes.all (·.isValidChar) then .text (String.ofList (codes.map Char.ofNat))
  else .atom (.broken codes)

/-- The values that a value gives one by one: the items of a list, the characters of a
text, the numbers of bytes or the keys of a record. -/
def elements : Value → Except Failure (List Value)
  | .list items => .ok items
  | .text s => .ok (s.toList.map fun c => .text (String.singleton c))
  | .record fields => .ok (fields.map Prod.fst)
  | .pair a b => .ok [a, b]
  | .members items => .ok items
  | .atom (.bytes content) => .ok (content.map fun b => .int b.toNat)
  | .atom (.broken codes) => .ok (codes.map fun n => ofCodes [n])
  | v => .error (.mistyped (.noItems v.kind))

example :
    equal (.truth true) (.int 1) = true ∧ equal (.pitchClass (.ofInt 1)) (.truth true) = true := by
  decide +kernel

example : equal (.interval (.ofNat 1)) (.int 1) = false := by decide +kernel

example : equal (.float (.undefined 1)) (.float (.undefined 1)) = false ∧
    equal (.list [.float (.undefined 1)]) (.list [.float (.undefined 1)]) = true := by
  decide +kernel

end Consonance.Value
