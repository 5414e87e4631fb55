import Consonance.Number.Integer
import Consonance.Value.Order

/-!
# Arithmetic on values

Whole numbers of any kind give integers.  As soon as a floating-point number
takes part, the other operand is rounded to one first, which fails beyond their
range.  Two texts or two lists have a sum, their concatenation, and a product
with a whole number, their repetition.  Two intervals have a sum.  Every other
combination is a fault.

`add_int`, `sub_int` and their kin say that on integers these are the operations of
the integers.
-/

namespace Consonance

open Number

/-! ## Quantities -/

namespace Quantity

/-- Two numbers brought to a common kind. -/
inductive Pair where
  | whole (m n : Int)
  /-- At least one is a floating-point number. -/
  | floating (x y : Binary64)
  deriving DecidableEq, Repr

def toFloat (n : Int) : Except Failure Binary64 :=
  match Binary64.ofInt? n with
  | some x => .ok x
  | none => .error (.overflow .floating)

/-- Two quantities as numbers of a common kind. -/
def common (p q : Quantity) : Except Failure Pair :=
  p.fold
    (fun m => q.fold (fun n => .ok (.whole m n)) fun y => do return .floating (← toFloat m) y)
    (fun x => q.fold (fun n => do return .floating x (← toFloat n)) fun y => .ok (.floating x y))

/-- An operation that every two numbers have. -/
def combine (whole : Int → Int → Int) (floating : Binary64 → Binary64 → Binary64)
    (p q : Quantity) : Except Failure Quantity := do
  match ← common p q with
  | .whole m n => return .int (whole m n)
  | .floating x y => return .float (floating x y)

/-- An operation that has no zero for its second operand. -/
def divide (whole : Int → Int → Except Failure Quantity) (floating : Binary64 → Binary64 → Binary64)
    (p q : Quantity) : Except Failure Quantity := do
  match ← common p q with
  | .whole m n => if n = 0 then .error (.divisionByZero false) else whole m n
  | .floating x y =>
    if y.isZero then .error (.divisionByZero true) else return .float (floating x y)

/-- The quotient of two integers as a floating-point number.  They are divided exactly and
rounded once. -/
def quotient (m n : Int) : Except Failure Quantity :=
  match Binary64.roundQuotient (decide (m < 0) != decide (n < 0)) m.natAbs n.natAbs with
  | .infinite _ => .error (.overflow .floating)
  | x => .ok (.float x)

def apply : Operation → Quantity → Quantity → Except Failure Quantity
  | .add => combine (· + ·) Binary64.add
  | .sub => combine (· - ·) Binary64.sub
  | .mul => combine (· * ·) Binary64.mul
  | .div => divide quotient Binary64.div
  | .floorDiv => divide (fun m n => .ok (.int (Int.fdiv m n))) Binary64.floorDiv
  | .mod => divide (fun m n => .ok (.int (Int.fmod m n))) Binary64.mod

end Quantity

namespace Value

/-- An operation on two values that are numbers.  Nothing, if one of them is none. -/
def numeric? (op : Operation) (a b : Value) : Option (Except Failure Value) :=
  match a.quantity?, b.quantity? with
  | some p, some q => some do return ofQuantity (← p.apply op q)
  | _, _ => none

def calculate (op : Operation) (a b : Value) : Except Failure Value :=
  match numeric? op a b with
  | some outcome => outcome
  | none => .error (.mistyped (.operands op a.kind b.kind))

/-! ## Sums -/

def add (a b : Value) : Except Failure Value :=
  match a, b with
  | .text s, .text t => .ok (.text (s ++ t))
  | .list xs, .list ys => .ok (.list (xs ++ ys))
  | .interval i, .interval j => do return .interval ⟨← i.semitones.apply .add j.semitones⟩
  | .text _, b => .error (.mistyped (.extension "str" b.kind))
  | .list _, b => .error (.mistyped (.extension "list" b.kind))
  | a, b => calculate .add a b

def sub (a b : Value) : Except Failure Value := calculate .sub a b

/-! ## Products -/

/-- The magnitude of a count that no machine word holds. -/
def countBound : Int := 9223372036854775808

/-- The bytes of memory that no sequence can have. -/
def roomBound : Nat := 68719476736

/-- A text or a list some number of times in a row.  The count must fit a machine word even
if nothing comes of it. -/
def repeated (count : Int) (v : Value) : Option (Except Failure Value) :=
  let times := count.toNat
  let counted (outcome : Except Failure Value) : Except Failure Value :=
    if count < -countBound ∨ countBound ≤ count then .error (.overflow .repetitions) else outcome
  match v with
  | .text s =>
    let size := s.length * times
    some (counted (
      if countBound ≤ size then .error (.overflow .repeatedText)
      else if roomBound ≤ size then .error .noRoom
      else if s = "" then .ok v
      else .ok (.text (String.join (List.replicate times s)))))
  | .list xs =>
    some (counted (
      if roomBound ≤ 8 * (xs.length * times) then .error .noRoom
      else if xs.isEmpty then .ok v
      else .ok (.list (List.replicate times xs).flatten)))
  | _ => none

def mul (a b : Value) : Except Failure Value :=
  match numeric? .mul a b with
  | some outcome => outcome
  | none =>
    match a, b with
    | .text _, b | .list _, b =>
      match b.whole?.bind (repeated · a) with
      | some outcome => outcome
      | none => .error (.mistyped (.repetition b.kind))
    | a, .text _ | a, .list _ =>
      match a.whole?.bind (repeated · b) with
      | some outcome => outcome
      | none => .error (.mistyped (.repetition a.kind))
    | a, b => .error (.mistyped (.operands .mul a.kind b.kind))

/-! ## Quotients and remainders -/

/-- The quotient of two numbers as a floating-point number. -/
def div (a b : Value) : Except Failure Value := calculate .div a b

/-- The quotient of two numbers, rounded down. -/
def floorDiv (a b : Value) : Except Failure Value := calculate .floorDiv a b

/-- The remainder of the division that rounds down. -/
def mod (a b : Value) : Except Failure Value := calculate .mod a b

/-! ## Other operations -/

def neg : Value → Except Failure Value
  | .float x => .ok (.float x.neg)
  | v =>
    match v.whole? with
    | some n => .ok (.int (-n))
    | none => .error (.mistyped (.negation v.kind))

def integerOfText (s : String) : Except Failure Int :=
  match readInteger s with
  | .ok n => .ok n
  | .error .malformed => .error (.invalid (.malformedInteger 10 (.text s)))
  | .error (.tooLong digits) => .error (.invalid (.tooManyDigits digits))

/-- A value as an integer: a number without its fraction, or a text that is read. -/
def toInteger : Value → Except Failure Int
  | .text s => integerOfText s
  | .float (.undefined _) => .error (.invalid .undefinedNumber)
  | .float x =>
    match x.trunc? with
    | some n => .ok n
    | none => .error (.overflow .infinite)
  | v =>
    match v.whole? with
    | some n => .ok n
    | none => .error (.mistyped (.unreadable v.kind))

@[simp] theorem add_int (m n : Int) : add (.int m) (.int n) = .ok (.int (m + n)) := rfl

@[simp] theorem sub_int (m n : Int) : sub (.int m) (.int n) = .ok (.int (m - n)) := rfl

@[simp] theorem mul_int (m n : Int) : mul (.int m) (.int n) = .ok (.int (m * n)) := rfl

@[simp] theorem neg_int (n : Int) : neg (.int n) = .ok (.int (-n)) := rfl

@[simp] theorem toInteger_int (n : Int) : toInteger (.int n) = .ok n := rfl

example : ((repeated 2 (.text "ab")).bind Except.toOption).map plain = some "abab" := by
  decide +kernel

end Value

end Consonance
