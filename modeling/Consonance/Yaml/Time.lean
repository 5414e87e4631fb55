import Consonance.Failure

/-!
# Times

A day is written as year, month and day with hyphens between them.  A time of day may follow
after a `T` or after blanks.  The seconds may have a fraction, of which six digits count.
The zone is `Z` for universal time or a signed span of hours and minutes.

`timeAt?` reads the numbers without asking whether there is such a time.
-/

namespace Consonance.Yaml

open Consonance.Text

/-- A time of day as it is written. -/
structure WrittenClock where
  hour : Nat
  minute : Nat
  second : Nat
  /-- The digits of the fraction of the second. -/
  places : List Char
  /-- How many minutes the zone is ahead of universal time. -/
  zone : Option Int
  deriving DecidableEq, Repr

/-- A day as it is written, and a time of day if there is one. -/
structure WrittenTime where
  date : Date
  clock : Option WrittenClock
  deriving DecidableEq, Repr

def decimalOf (digits : List Char) : Nat := Number.ofDigits (digits.filterMap decimalValue?)

/-- The number in front, of at least and at most so many digits, and the rest. -/
def digitsAt? (least most : Nat) (cs : List Char) : Option (Nat × List Char) :=
  let digits := (cs.take most).takeWhile Char.isDigit
  if digits.length < least then none else some (decimalOf digits, cs.drop digits.length)

/-- The number after a mark, of at least and at most so many digits, and the rest. -/
def digitsAfter? (mark : Char) (least most : Nat) : List Char → Option (Nat × List Char)
  | [] => none
  | c :: rest => if c = mark then digitsAt? least most rest else none

def zoneAt? : List Char → Option Int
  | ['Z'] => some 0
  | c :: rest => do
    let (hours, rest) ← digitsAt? 1 2 rest
    let minutes ←
      if rest = [] then some 0
      else
        match digitsAfter? ':' 2 2 rest with
        | some (minutes, []) => some minutes
        | _ => none
    let span : Int := hours * 60 + minutes
    if c = '+' then some span else if c = '-' then some (-span) else none
  | [] => none

/-- A time of day and nothing after it. -/
def clockAt? (cs : List Char) : Option WrittenClock := do
  let (hour, cs) ← digitsAt? 1 2 cs
  let (minute, cs) ← digitsAfter? ':' 2 2 cs
  let (second, cs) ← digitsAfter? ':' 2 2 cs
  let (places, cs) := match cs with
    | '.' :: rest => (rest.takeWhile Char.isDigit, rest.dropWhile Char.isDigit)
    | cs => ([], cs)
  if cs = [] then some ⟨hour, minute, second, places, none⟩
  else
    let zone ← zoneAt? (cs.dropWhile fun c => c == ' ' || c == '\t')
    some ⟨hour, minute, second, places, some zone⟩

/-- A time as it is written, and nothing after it. -/
def timeAt? (cs : List Char) : Option WrittenTime := do
  let (year, cs) ← digitsAt? 4 4 cs
  let (month, cs) ← digitsAfter? '-' 1 2 cs
  let (day, cs) ← digitsAfter? '-' 1 2 cs
  let date : Date := ⟨year, month, day⟩
  match cs with
  | [] => some ⟨date, none⟩
  | c :: rest =>
    if c = 'T' ∨ c = 't' then do return ⟨date, ← clockAt? rest⟩
    else if c = ' ' ∨ c = '\t' then do
      return ⟨date, ← clockAt? (rest.dropWhile fun c => c == ' ' || c == '\t')⟩
    else none

/-- The millionth part of a second that the digits of a fraction give. -/
def microsecondOf (places : List Char) : Nat :=
  let digits := places.take 6
  decimalOf digits * Nat.pow 10 (6 - digits.length)

def refuse (fault : Option TimeFault) : Except Failure Unit :=
  match fault with
  | some fault => .error (.invalid (.time fault))
  | none => .ok ()

/-- The time that is written, if there is such a time. -/
def WrittenTime.value (t : WrittenTime) : Except Failure Value :=
  match t.clock with
  | none => do
    refuse t.date.fault?
    return .atom (.date t.date)
  | some c => do
    let clock : Clock := ⟨c.hour, c.minute, c.second, microsecondOf c.places, c.zone⟩
    refuse (c.zone.bind zoneFault?)
    refuse t.date.fault?
    refuse clock.fault?
    return .atom (.moment t.date clock)

example : timeAt? "2001-12-14t21:59:43.10-05:00".toList =
    some ⟨⟨2001, 12, 14⟩, some ⟨21, 59, 43, ['1', '0'], some (-300)⟩⟩ := by
  decide +kernel

example : timeAt? "2001-12-14 ".toList = none ∧
    (timeAt? "2001-2-3".toList).isSome = true := by
  decide +kernel

end Consonance.Yaml
