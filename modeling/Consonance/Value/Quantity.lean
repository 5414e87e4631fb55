import Consonance.Number.Shortest
import Consonance.Pitch.Class

/-!
# Quantities

A number as it was given.  Integers, the two truth values as one and zero, and pitch
classes by their position are whole numbers; the rest are floating-point numbers.  Equal
numbers of different kinds are still told apart when they are shown.

The arithmetic here has a natural number for its other operand, and never fails.
-/

namespace Consonance

open Number (Binary64)

/-- A number as it was given. -/
inductive Quantity where
  | int (n : Int)
  | truth (b : Bool)
  | pitchClass (c : PitchClass)
  | float (x : Binary64)
  deriving DecidableEq, Repr

namespace Quantity

variable {α : Type}

/-- What becomes of a whole number, and of a floating-point number. -/
def fold (whole : Int → α) (floating : Binary64 → α) : Quantity → α
  | .int n => whole n
  | .truth b => whole (if b then 1 else 0)
  | .pitchClass c => whole c.toInt
  | .float x => floating x

/-- The whole number that a quantity is given as. -/
def whole? (q : Quantity) : Option Int := q.fold some fun _ => none

/-- The integer that a quantity is equal to, if there is one. -/
def integer? (q : Quantity) : Option Int := q.fold some Binary64.toInt?

def exactValue? (q : Quantity) : Option Binary64.Exact :=
  q.fold (fun n => some (.ratio n 1)) Binary64.exactValue?

/-- Whether two quantities have the same exact value. -/
def equal (p q : Quantity) : Bool :=
  match p.exactValue?, q.exactValue? with
  | some x, some y => x.order y == .eq
  | _, _ => false

/-- Whether two quantities are equal, or one and the same undefined number. -/
def same (p q : Quantity) : Bool :=
  match p, q with
  | .float (.undefined m), .float (.undefined n) => m == n && m != 0
  | p, q => p.equal q

/-- The remainder of the division by a positive number, rounded down. -/
def mod (q : Quantity) (n : Nat) : Quantity :=
  q.fold (fun m => .int (Int.fmod m n)) fun x => .float (x.mod (.ofNat n))

/-- The quotient by a positive number, rounded down. -/
def floorDiv (q : Quantity) (n : Nat) : Quantity :=
  q.fold (fun m => .int (Int.fdiv m n)) fun x => .float (x.floorDiv (.ofNat n))

/-- What a quantity leaves of a number. -/
def takenFrom (n : Nat) (q : Quantity) : Quantity :=
  q.fold (fun m => .int (n - m)) fun x => .float ((Binary64.ofNat n).sub x)

@[simp] theorem whole?_int (n : Int) : (Quantity.int n).whole? = some n := rfl

@[simp] theorem exactValue?_int (n : Int) : (Quantity.int n).exactValue? = some (.ratio n 1) := rfl

@[simp] theorem mod_int (m : Int) (n : Nat) : (Quantity.int m).mod n = .int (Int.fmod m n) := rfl

/-- Integers are equal as quantities when they are the same. -/
@[simp] theorem equal_int (m n : Int) : equal (.int m) (.int n) = (m == n) := by
  have h : equal (.int m) (.int n) = (compare (m * 1) (n * 1) == .eq) := rfl
  rw [h, Int.mul_one, Int.mul_one, Bool.eq_iff_iff]
  simp

/-! ## Text -/

/-- The text of a quantity that stands by itself. -/
def plain : Quantity → String
  | .int n => toString n
  | .truth b => if b then "True" else "False"
  | .pitchClass c => toString c.toInt
  | .float x => x.text

/-- The text of a quantity with its kind in view. -/
def quoted : Quantity → String
  | .pitchClass c => "<PitchClass." ++ c.spelling.symbol ++ ": " ++ toString c.toInt ++ ">"
  | q => q.plain

/-! ## Fingerprints -/

/-- The modulus of fingerprints, a prime one below a power of two. -/
def fingerprintModulus : Nat := 2305843009213693951

/-- A power of two modulo the fingerprint modulus, where it is `2 ^ 61 = 1`. -/
def twoToThe (exponent : Int) : Nat := Nat.pow 2 (exponent % 61).toNat

/-- The fingerprint by which sets tell most quantities apart at once: the exact value modulo a
prime.  Quantities with the same value have the same fingerprint. -/
def fingerprint (q : Quantity) : Option Int :=
  let signed (negative : Bool) (n : Nat) : Int :=
    Binary64.signed negative (n % fingerprintModulus)
  q.fold (fun n => some (signed (n < 0) n.natAbs)) fun
    | .finite negative significand exponent =>
      some (signed negative (significand % fingerprintModulus * twoToThe exponent))
    | .infinite negative => some (Binary64.signed negative 314159)
    | .undefined _ => none

/-- Whether two quantities have the same fingerprint.  That of an undefined number is its
own. -/
def sameFingerprint (p q : Quantity) : Bool :=
  match p.fingerprint, q.fingerprint with
  | some m, some n => m == n
  | _, _ => p.same q

example : equal (.truth true) (.float .one) = true := by decide +kernel

example : sameFingerprint (.int 2305843009213693952) (.float .one) = true := by decide +kernel

example : sameFingerprint (.float (Binary64.ofNat 7)) (.int 7) = true := by decide +kernel

end Quantity

end Consonance
