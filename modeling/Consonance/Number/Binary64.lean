/-!
# Binary floating-point numbers

A number of the 64-bit binary format is a signed significand times a power of
two, or an infinity, or undefined.  Everything here is exact arithmetic on
integers, so that it can be reasoned about.  An operation computes its exact
result as a quotient and rounds once, to the nearest representable number and
to the even significand on a tie (`roundQuotient`).

A finite number keeps its significand below `2 ^ 53` and its exponent at least
`-1074`, the significand as large as that allows.  Zero has a sign.

An undefined number is equal to nothing.  It is still the same thing when it is looked at
twice, and for that it can carry a *mark*.  The mark zero is none: an operation gives an
undefined number that is the same as no other.
-/

namespace Consonance.Number

/-- A number of the 64-bit binary format. -/
inductive Binary64 where
  /-- The significand times two to the exponent. -/
  | finite (negative : Bool) (significand : Nat) (exponent : Int)
  | infinite (negative : Bool)
  /-- The result of an operation that has none, with its mark. -/
  | undefined (mark : Nat)
  deriving DecidableEq, Repr

namespace Binary64

/-- The least exponent of a finite number. -/
def leastExponent : Int := -1074

/-- The greatest exponent of a finite number. -/
def greatestExponent : Int := 971

/-- Zero with a sign. -/
def zero (negative : Bool) : Binary64 := .finite negative 0 leastExponent

/-- One. -/
def one : Binary64 := .finite false 4503599627370496 (-52)

/-- An undefined number that is the same as no other. -/
def noNumber : Binary64 := .undefined 0

/-! ## Rounding -/

/-- The integer next to `num / den`, the even one on a tie. -/
def nearestEven (num den : Nat) : Nat :=
  let q := num / den
  let r := num % den
  if 2 * r < den then q
  else if den < 2 * r then q + 1
  else if q % 2 = 0 then q
  else q + 1

/-- A quotient divided by a power of two. -/
def scaleDown (num den : Nat) (exponent : Int) : Nat × Nat :=
  if 0 ≤ exponent then (num, den * Nat.pow 2 exponent.toNat)
  else (num * Nat.pow 2 (-exponent).toNat, den)

/-- The exponent that brings a positive quotient to 53 binary digits. -/
def exponentFor (num den : Nat) : Int :=
  let guess : Int := (num.log2 : Int) - den.log2 - 52
  let scaled := scaleDown num den guess
  let exponent := if scaled.1 / scaled.2 < Nat.pow 2 52 then guess - 1 else guess
  max exponent leastExponent

/-- The number nearest to `num / den`, with the given sign. -/
def roundQuotient (negative : Bool) (num den : Nat) : Binary64 :=
  if num = 0 then zero negative
  else
    let exponent := exponentFor num den
    let scaled := scaleDown num den exponent
    let significand := nearestEven scaled.1 scaled.2
    let (significand, exponent) :=
      if significand = Nat.pow 2 53 then (Nat.pow 2 52, exponent + 1) else (significand, exponent)
    if greatestExponent < exponent then .infinite negative
    else .finite negative significand exponent

/-- The number nearest to a natural number. -/
def ofNat (n : Nat) : Binary64 := roundQuotient false n 1

/-- The number nearest to an integer.  Nothing, if that is beyond the finite numbers. -/
def ofInt? (n : Int) : Option Binary64 :=
  match roundQuotient (n < 0) n.natAbs 1 with
  | .infinite _ => none
  | x => some x

/-- The number nearest to the decimal `digits * 10 ^ exponent`.  Exponents far out
of range are cut off before the power of ten is formed. -/
def ofDecimal (negative : Bool) (digits : Nat) (exponent : Int) : Binary64 :=
  let length : Int := (digits.log2 : Int) / 3 + 1
  if digits = 0 then zero negative
  else if 400 < exponent then .infinite negative
  else if exponent + length < -400 then zero negative
  else if 0 ≤ exponent then roundQuotient negative (digits * Nat.pow 10 exponent.toNat) 1
  else roundQuotient negative digits (Nat.pow 10 (-exponent).toNat)

/-! ## Exact values -/

/-- An exact value: a quotient or an end of the number line. -/
inductive Exact where
  | bottom
  /-- The quotient of an integer by a positive number. -/
  | ratio (num : Int) (den : Nat)
  | top
  deriving DecidableEq, Repr

def Exact.order : Exact → Exact → Ordering
  | .bottom, .bottom => .eq
  | .bottom, _ => .lt
  | _, .bottom => .gt
  | .top, .top => .eq
  | .top, _ => .gt
  | _, .top => .lt
  | .ratio a b, .ratio c d => compare (a * d) (c * b)

def signed (negative : Bool) (n : Nat) : Int := if negative then -(n : Int) else n

def quotient (negative : Bool) (significand : Nat) (exponent : Int) : Int × Nat :=
  if 0 ≤ exponent then (signed negative (significand * Nat.pow 2 exponent.toNat), 1)
  else (signed negative significand, Nat.pow 2 (-exponent).toNat)

/-- The exact value, unless the number is undefined. -/
def exactValue? : Binary64 → Option Exact
  | .finite s m e => let (num, den) := quotient s m e; some (.ratio num den)
  | .infinite true => some .bottom
  | .infinite false => some .top
  | .undefined _ => none

/-- The sign of a number, that of a zero included. -/
def isNegative : Binary64 → Bool
  | .finite s _ _ => s
  | .infinite s => s
  | .undefined _ => false

def isZero : Binary64 → Bool
  | .finite _ m _ => m == 0
  | _ => false

/-- A quotient with an integer numerator, rounded.  A zero gets the given sign. -/
def roundRatio (zeroNegative : Bool) (num : Int) (den : Nat) : Binary64 :=
  if num = 0 then zero zeroNegative else roundQuotient (num < 0) num.natAbs den

/-! ## Arithmetic -/

def neg : Binary64 → Binary64
  | .finite s m e => .finite (!s) m e
  | .infinite s => .infinite (!s)
  | .undefined _ => noNumber

/-- The sum.  A zero sum is negative only if both parts are. -/
def add : Binary64 → Binary64 → Binary64
  | .undefined _, _ => noNumber
  | _, .undefined _ => noNumber
  | .infinite s, .infinite t => if s = t then .infinite s else noNumber
  | .infinite s, _ => .infinite s
  | _, .infinite t => .infinite t
  | .finite s m e, .finite t n f =>
    let (a, b) := quotient s m e
    let (c, d) := quotient t n f
    roundRatio (s && t) (a * d + c * b) (b * d)

def sub (x y : Binary64) : Binary64 := x.add y.neg

def mul (x y : Binary64) : Binary64 :=
  let negative := x.isNegative != y.isNegative
  match x, y with
  | .undefined _, _ => noNumber
  | _, .undefined _ => noNumber
  | .finite s m e, .finite t n f =>
    let (a, b) := quotient s m e
    let (c, d) := quotient t n f
    roundRatio negative (a * c) (b * d)
  | x, y => if x.isZero || y.isZero then noNumber else .infinite negative

/-- The quotient by a number that is not zero. -/
def div (x y : Binary64) : Binary64 :=
  let negative := x.isNegative != y.isNegative
  match x, y with
  | .undefined _, _ => noNumber
  | _, .undefined _ => noNumber
  | .finite s m e, .finite t n f =>
    let (a, b) := quotient s m e
    let (c, d) := quotient t n f
    roundQuotient negative (a.natAbs * d) (b * c.natAbs)
  | .infinite _, .infinite _ => noNumber
  | .infinite _, _ => .infinite negative
  | _, _ => zero negative

/-- The remainder of the division that rounds down, by a number that is not zero.
It has the sign of the divisor, also when it is zero. -/
def mod (x y : Binary64) : Binary64 :=
  match x, y with
  | .finite s m e, .finite t n f =>
    let (a, b) := quotient s m e
    let (c, d) := quotient t n f
    roundRatio t (Int.fmod (a * d) (c * b)) (b * d)
  | .finite s m e, .infinite t =>
    if m = 0 then zero t else if s = t then .finite s m e else .infinite t
  | _, _ => noNumber

/-- The remainder of the division that drops the fraction, by a number that is not zero.
It has the sign of the dividend, also when it is zero, and is exact. -/
def rem (x y : Binary64) : Binary64 :=
  match x, y with
  | .finite s m e, .finite t n f =>
    let (a, b) := quotient s m e
    let (c, d) := quotient t n f
    roundRatio s (Int.tmod (a * d) (c * b)) (b * d)
  | .finite s m e, .infinite _ => .finite s m e
  | _, _ => noNumber

/-- The greatest integer that is at most the number. -/
def floor : Binary64 → Binary64
  | .finite s m e =>
    let (num, den) := quotient s m e
    roundRatio s (Int.fdiv num den) 1
  | x => x

/-- The quotient by a number that is not zero, rounded down.  It is worked out in steps that
round one by one: the dividend without its remainder is divided, and one is taken off if the
remainder and the divisor have different signs.  A zero has the sign of the quotient. -/
def floorDiv (x y : Binary64) : Binary64 :=
  let r := x.rem y
  let q := (x.sub r).div y
  let q := if !r.isZero && r.isNegative != y.isNegative then q.sub one else q
  if q.isZero then zero (x.isNegative != y.isNegative)
  else
    let down := q.floor
    match (q.sub down).exactValue? with
    | some gap => if gap.order (.ratio 1 2) == .gt then down.add one else down
    | none => down

/-- The part before the point, for a finite number. -/
def trunc? : Binary64 → Option Int
  | .finite s m e => let (num, den) := quotient s m e; some (Int.tdiv num den)
  | _ => none

/-- The integer that the number is equal to, if there is one. -/
def toInt? : Binary64 → Option Int
  | .finite s m e =>
    let (num, den) := quotient s m e
    if Int.emod num den = 0 then some (Int.tdiv num den) else none
  | _ => none

example : roundQuotient false 1 1 = one := by decide +kernel

example : (roundQuotient false 1 10).toInt? = none := by decide +kernel

example : add (roundQuotient false 1 2) (roundQuotient false 1 2) = roundQuotient false 1 1 := by
  decide +kernel

example :
    mul (roundQuotient false 1 10) (roundQuotient false 480 1) = roundQuotient false 48 1 := by
  decide +kernel

example : ((roundQuotient false 121 2).floorDiv (ofNat 12)).toInt? = some 5 := by decide +kernel

example : (mul (roundQuotient false 29 100) (roundQuotient false 480 1)).trunc? = some 139 := by
  decide +kernel

end Binary64

end Consonance.Number
