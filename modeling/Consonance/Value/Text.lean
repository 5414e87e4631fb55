import Consonance.Number.Integer
import Consonance.Number.Shortest
import Consonance.Value.Basic

/-!
# The text of a value

A value has two texts.  The *plain* text is what a message shows of a value that
stands by itself: a text as it is, a pitch class by its number, an interval by
its short name.  The *quoted* text tells kinds apart: a text stands between
quotes, and a pitch class and an interval name themselves.  Inside a list or a
record everything is quoted.

Some values have no text.  An integer of too many digits cannot be written, and
an interval with a fraction of a semitone has no short name.  `quotedFault?` and
`plainFault?` say what keeps a value from being shown.
-/

namespace Consonance.Value

open Consonance.Text Consonance.Number

mutual

/-- The text of a value with its kind in view. -/
def quoted : Value → String
  | .nothing => "None"
  | .truth b => if b then "True" else "False"
  | .int n => toString n
  | .float x => x.text
  | .text s => Text.quoted s
  | .list items => "[" ++ quotedItems items ++ "]"
  | .record fields => "\x7b" ++ quotedFields fields ++ "\x7d"
  | .pitchClass c => (Quantity.pitchClass c).quoted
  | .interval i => "Interval(" ++ i.semitones.plain ++ ")"
  | .pair a b => "(" ++ quoted a ++ ", " ++ quoted b ++ ")"
  | .members items => if items.isEmpty then "set()" else "\x7b" ++ quotedItems items ++ "\x7d"
  | .atom a => a.text

/-- The quoted texts of the items of a list, with commas between them. -/
def quotedItems : List Value → String
  | [] => ""
  | [v] => quoted v
  | v :: w :: rest => quoted v ++ ", " ++ quotedItems (w :: rest)

/-- The quoted texts of the fields of a record, with commas between them. -/
def quotedFields : List (Value × Value) → String
  | [] => ""
  | [(k, v)] => quoted k ++ ": " ++ quoted v
  | (k, v) :: w :: rest => quoted k ++ ": " ++ quoted v ++ ", " ++ quotedFields (w :: rest)

end

/-- The text of a value that stands by itself. -/
def plain : Value → String
  | .text s => s
  | .pitchClass c => toString c.toInt
  | .interval i => i.text?.getD ""
  | v => quoted v

/-! ## Values without a text -/

/-- What keeps a value from being shown. -/
inductive TextFault where
  | unwritable
  /-- No interval within the octave has this size. -/
  | unnamed (residue : Quantity)
  deriving DecidableEq, Repr

/-- What keeps a number from being written. -/
def numberFault? (q : Quantity) : Option TextFault :=
  match q with
  | .int n => if Number.isWritable n then none else some .unwritable
  | _ => none

mutual

/-- What keeps the quoted text of a value from being formed. -/
def quotedFault? : Value → Option TextFault
  | .int n => numberFault? (.int n)
  | .interval i => numberFault? i.semitones
  | .list items => itemFault? items
  | .record fields => fieldFault? fields
  | .pair a b => (quotedFault? a).or (quotedFault? b)
  | .members items => itemFault? items
  | _ => none

/-- What keeps the quoted texts of the items of a list from being formed. -/
def itemFault? : List Value → Option TextFault
  | [] => none
  | v :: rest => (quotedFault? v).or (itemFault? rest)

/-- What keeps the quoted texts of the fields of a record from being formed. -/
def fieldFault? : List (Value × Value) → Option TextFault
  | [] => none
  | (k, v) :: rest => ((quotedFault? k).or (quotedFault? v)).or (fieldFault? rest)

end

/-- What keeps the plain text of a value from being formed. -/
def plainFault? : Value → Option TextFault
  | .interval i =>
    if i.residue.integer?.isSome then numberFault? i.octaves else some (.unnamed i.residue)
  | v => quotedFault? v

example : plain (.pitchClass (.ofInt 3)) = "3" := by decide +kernel

example : quoted (.list [.text "C", .pitchClass (.ofInt 3)]) = "['C', <PitchClass.Ds: 3>]" := by
  decide +kernel

end Consonance.Value
