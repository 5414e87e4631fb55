import Consonance.Text.Quoted

/-!
# Atoms

Documents can say more than the other inputs: bytes, days and times, and texts with half of
a surrogate pair in them.  A document can also hold a collection inside itself.  Where such
a collection comes up again inside itself, its place is taken by an atom.

Nothing can be computed with an atom.  It can be shown, compared and refused.
-/

namespace Consonance

open Consonance.Text

/-- A day of the calendar. -/
structure Date where
  year : Nat
  month : Nat
  /-- The day of the month, from one. -/
  day : Nat
  deriving DecidableEq, Repr

/-- A time of day. -/
structure Clock where
  hour : Nat
  minute : Nat
  second : Nat
  microsecond : Nat
  /-- How many minutes the zone is ahead of universal time, if the zone is known. -/
  zone : Option Int
  deriving DecidableEq, Repr

/-- A datum that only documents have. -/
inductive Atom where
  | bytes (content : List UInt8)
  | date (d : Date)
  | moment (d : Date) (t : Clock)
  /-- A text with half of a surrogate pair in it, by the numbers of its characters. -/
  | broken (codes : List Nat)
  /-- The collection in which it stands, or one around it. -/
  | again (isRecord : Bool)
  deriving DecidableEq, Repr

/-! ## Days -/

namespace Date

/-- Whether a year has a 29th of February. -/
def isLeap (year : Nat) : Bool := year % 4 == 0 && (year % 100 != 0 || year % 400 == 0)

/-- The number of days in a month. -/
def daysIn (year month : Nat) : Nat :=
  if month = 2 then if isLeap year then 29 else 28
  else if month ∈ [4, 6, 9, 11] then 30
  else 31

/-- The number of a day, counted from the first day of the year one. -/
def number (d : Date) : Nat :=
  let before := d.year - 1
  let months := (List.range (d.month - 1)).foldl (fun n m => n + daysIn d.year (m + 1)) 0
  before * 365 + before / 4 - before / 100 + before / 400 + months + d.day

end Date

/-- The minute of a time on a day in universal time, if its zone is known. -/
def Clock.minuteOn? (t : Clock) (d : Date) : Option Int :=
  t.zone.map fun zone => d.number * 1440 + t.hour * 60 + t.minute - zone

/-! ## Parts out of range -/

/-- Why some numbers are no time. -/
inductive TimeFault where
  | year (n : Nat)
  | month
  | day
  | hour
  | minute
  | second
  /-- A zone is a day or more ahead or behind. -/
  | zone (minutes : Int)
  deriving DecidableEq, Repr

/-- What is wrong with a day, if anything is. -/
def Date.fault? (d : Date) : Option TimeFault :=
  if d.year = 0 then some (.year d.year)
  else if d.month = 0 ∨ 12 < d.month then some .month
  else if d.day = 0 ∨ Date.daysIn d.year d.month < d.day then some .day
  else none

/-- What is wrong with a time of day, if anything is.  The zone is looked at apart. -/
def Clock.fault? (t : Clock) : Option TimeFault :=
  if 23 < t.hour then some .hour
  else if 59 < t.minute then some .minute
  else if 59 < t.second then some .second
  else none

/-- What is wrong with a zone, if anything is. -/
def zoneFault? (minutes : Int) : Option TimeFault :=
  if minutes.natAbs < 1440 then none else some (.zone minutes)

/-! ## Texts -/

def quoteByte (quote : Char) (b : UInt8) : List Char :=
  let c := Char.ofNat b.toNat
  if c = quote ∨ c = '\\' then ['\\', c]
  else if c = '\t' then ['\\', 't']
  else if c = '\n' then ['\\', 'n']
  else if c = '\r' then ['\\', 'r']
  else if 0x20 ≤ b.toNat ∧ b.toNat < 0x7f then [c]
  else '\\' :: 'x' :: hexDigits 2 b.toNat

/-- Bytes between quotes. -/
def quoteBytes (content : List UInt8) : String :=
  let quote := quoteFor (content.map fun b => Char.ofNat b.toNat)
  String.ofList ('b' :: quote :: (content.flatMap (quoteByte quote) ++ [quote]))

/-- A text with half of a surrogate pair in it, between quotes. -/
def quoteCodes (codes : List Nat) : String :=
  let quote := quoteFor (codes.map Char.ofNat)
  let one := fun n => if n.isValidChar then quoteChar quote (Char.ofNat n) else numbered n
  String.ofList (quote :: (codes.flatMap one ++ [quote]))

/-- Numbers with commas between them. -/
def commaSeparated (ns : List Nat) : String := ", ".intercalate (ns.map toString)

/-- A span of minutes, as days and the seconds of the last day. -/
def spanText (minutes : Int) : String :=
  let days := Int.fdiv minutes 1440
  let seconds := Int.fmod minutes 1440 * 60
  let parts := (if days = 0 then [] else ["days=" ++ toString days]) ++
    (if seconds = 0 then [] else ["seconds=" ++ toString seconds])
  "datetime.timedelta(" ++ (if parts = [] then "0" else ", ".intercalate parts) ++ ")"

/-- A zone by its span ahead of universal time. -/
def zoneText (minutes : Int) : String :=
  if minutes = 0 then "datetime.timezone.utc" else "datetime.timezone(" ++ spanText minutes ++ ")"

/-- A time on a day.  Seconds and their parts are left out if they are zero. -/
def momentText (d : Date) (t : Clock) : String :=
  let seconds :=
    if t.microsecond ≠ 0 then [t.second, t.microsecond]
    else if t.second ≠ 0 then [t.second]
    else []
  let zone := match t.zone with
    | some minutes => ", tzinfo=" ++ zoneText minutes
    | none => ""
  "datetime.datetime(" ++ commaSeparated ([d.year, d.month, d.day, t.hour, t.minute] ++ seconds) ++
    zone ++ ")"

def TimeFault.message : TimeFault → String
  | .year n => "year " ++ toString n ++ " is out of range"
  | .month => "month must be in 1..12"
  | .day => "day is out of range for month"
  | .hour => "hour must be in 0..23"
  | .minute => "minute must be in 0..59"
  | .second => "second must be in 0..59"
  | .zone minutes =>
    "offset must be a timedelta strictly between -timedelta(hours=24) and " ++
      "timedelta(hours=24), not " ++ spanText minutes ++ "."

namespace Atom

/-- The kind of an atom, as messages call it. -/
def kind : Atom → String
  | .bytes _ => "bytes"
  | .date _ => "datetime.date"
  | .moment _ _ => "datetime.datetime"
  | .broken _ => "str"
  | .again isRecord => if isRecord then "dict" else "list"

/-- Whether an atom counts as given.  Only no bytes at all do not. -/
def isGiven : Atom → Bool
  | .bytes content => !content.isEmpty
  | _ => true

def text : Atom → String
  | .bytes content => quoteBytes content
  | .date d => "datetime.date(" ++ commaSeparated [d.year, d.month, d.day] ++ ")"
  | .moment d t => momentText d t
  | .broken codes => quoteCodes codes
  | .again isRecord => if isRecord then "\x7b...\x7d" else "[...]"

/-- Whether two atoms are equal.  Two times in known zones are, when they are the same
instant. -/
def equal (a b : Atom) : Bool :=
  match a, b with
  | .moment d t, .moment e u =>
    match t.minuteOn? d, u.minuteOn? e with
    | some m, some n => m == n && t.second == u.second && t.microsecond == u.microsecond
    | none, none => d == e && t == u
    | _, _ => false
  | a, b => a == b

example : text (.bytes [97, 39]) = "b\"a'\"" := by decide +kernel

example : text (.moment ⟨2001, 12, 14⟩ ⟨21, 59, 0, 0, some (-300)⟩) =
    "datetime.datetime(2001, 12, 14, 21, 59, " ++
      "tzinfo=datetime.timezone(datetime.timedelta(days=-1, seconds=68400)))" := by
  decide +kernel

example : equal (.moment ⟨2000, 3, 1⟩ ⟨0, 30, 0, 0, some 60⟩)
    (.moment ⟨2000, 2, 29⟩ ⟨23, 30, 0, 0, some 0⟩) = true := by
  decide +kernel

end Atom

end Consonance
