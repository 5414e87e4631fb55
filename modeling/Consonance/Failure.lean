import Consonance.Solver.Term
import Consonance.Value.Text

/-!
# Failures

Everything that can go wrong, by cause.  Three families matter to the search.

* An *unknown name* is a mistake of the caller and ends the whole query.
* A *dead end* is a constraint that cannot hold on the present branch.  The
  search drops the branch and goes on.
* Every other failure ends the query as well: an invalid argument, an operation
  on values of the wrong kind, a division by zero.

`message` words a failure, and `shown` lists the values that the wording shows.
A wording that would show a value without a text cannot be formed, and then that
is the failure instead (`Failure.worded`).  So a dead end that cannot be worded
does end the query.
-/

namespace Consonance

/-- A binary operation on values. -/
inductive Operation where
  | add
  | sub
  | mul
  | div
  | floorDiv
  | mod
  deriving DecidableEq, Repr

def Operation.symbol : Operation → String
  | .add => "+"
  | .sub => "-"
  | .mul => "*"
  | .div => "/"
  | .floorDiv => "//"
  | .mod => "%"

/-- An order relation between values. -/
inductive Comparison where
  | lt
  | le
  | gt
  | ge
  deriving DecidableEq, Repr

def Comparison.symbol : Comparison → String
  | .lt => "<"
  | .le => "<="
  | .gt => ">"
  | .ge => ">="

/-- Whether an outcome of a comparison makes the relation hold. -/
def Comparison.admits (c : Comparison) (o : Ordering) : Bool :=
  match c with
  | .lt => o == .lt
  | .le => o != .gt
  | .gt => o == .gt
  | .ge => o != .lt

/-- A constraint that cannot hold on the present branch. -/
inductive DeadEnd where
  /-- An absolute pitch lies outside the pitch space. -/
  | outsideSpace (pitch : Value) (lowest highest : Int)
  /-- A value is not in the domain of the variable it is bound to. -/
  | notInDomain (value : Value) (domain : List Value)
  /-- A value is not admitted by a restriction. -/
  | notAdmitted (value : Value)
  | differentValues (left right : Value)
  /-- A difference has three values that do not fit. -/
  | wrongDifference (minuend subtrahend distance : Value)
  /-- Two variables that become one share no value. -/
  | noSharedValue (left right : Var)
  | noValueLeft (var : Var)
  deriving Repr

/-- A part of a note event with bounds. -/
inductive EventPart where
  | pitch
  | velocity
  | channel
  /-- The tick at which the note starts. -/
  | start
  | duration
  deriving DecidableEq, Repr

/-- An argument of the right kind whose value is not acceptable. -/
inductive Invalid where
  /-- A pitch space is given upside down. -/
  | spaceOrder (lowest highest : Value)
  | negativeDistance (distance : Value)
  | negativeNamed (name : String) (distance : Value)
  /-- The intervals of a triad do not ascend from unison within an octave. -/
  | triadShape (semitones : List Value)
  | velocityRange (velocity : Value)
  | durationSign (num : Int) (den : Nat)
  /-- A number is not that of a pitch class. -/
  | pitchClassNumber (number : Value)
  /-- A text is no integer of a base. -/
  | malformedInteger (base : Nat) (text : Value)
  | malformedNumber (text : Value)
  /-- A number is not that of a character. -/
  | characterNumber
  | time (fault : TimeFault)
  /-- A text has too many digits to be read as an integer. -/
  | tooManyDigits (digits : Nat)
  /-- An integer has too many digits to be written. -/
  | unwritable
  /-- A truth value is given for a pitch. -/
  | pitchArgument (pitch : Value)
  | negativeLimit (limit : Value)
  | limitCount
  /-- The limit of a tool is out of range. -/
  | limitRange (limit : Value) (greatest : Nat)
  | unknownPreset (preset : Value)
  /-- A part of a note event is out of its bounds. -/
  | eventRange (part : EventPart) (value : Value)
  | tempoRange
  /-- A time between messages is no whole number of ticks. -/
  | tickCount
  /-- The least or greatest value of nothing is asked for. -/
  | emptyExtreme (greatest : Bool)
  /-- An interval name starts with a word that has no rank. -/
  | unrankedQuality
  /-- An undefined number has no integer part. -/
  | undefinedNumber
  | undefinedFraction
  | malformedFraction (text : String)
  /-- A file name holds a character that no file name can. -/
  | fileName
  deriving Repr

/-- A value of the wrong kind. -/
inductive Mistyped where
  /-- An operation has no meaning for these kinds. -/
  | operands (operation : Operation) (left right : String)
  /-- A sequence is only extended by its own kind. -/
  | extension (into part : String)
  /-- A sequence is only repeated a whole number of times. -/
  | repetition (count : String)
  /-- Values of these kinds have no order. -/
  | unordered (comparison : Comparison) (left right : String)
  /-- A value of this kind has no negative. -/
  | negation (kind : String)
  /-- A value of this kind cannot be a member of a set. -/
  | unhashable (kind : String)
  /-- A value of this kind has no items. -/
  | noItems (kind : String)
  /-- A value of this kind is not a whole number. -/
  | notWhole (kind : String)
  /-- A value of this kind cannot be read as an integer. -/
  | unreadable (kind : String)
  /-- A value of this kind is no fraction. -/
  | notFraction (kind : String)
  /-- A value of this kind has no text to look at. -/
  | notText (kind : String)
  /-- A value of this kind has no named fields. -/
  | noFields (kind : String)
  /-- A call lacks an argument or has one too many. -/
  | arguments
  /-- A chord is given this many pitches. -/
  | voiceCount (count : Nat)
  /-- A part of a note message is not a whole number. -/
  | dataByte
  deriving Repr

/-- A place inside a rejected input: a field or a position. -/
inductive Place where
  | field (name : String)
  | item (index : Nat)
  deriving DecidableEq, Repr

/-- What is wrong with a part of a rejected input. -/
inductive Flaw where
  | notSequence
  | missing
  | tooLong
  | fraction
  /-- A floating-point number that stands for no quantity. -/
  | notFinite
  | integerText
  /-- A text with half of a surrogate pair in it. -/
  | brokenText
  /-- A number that is too long to be read. -/
  | integerLength
  | notInteger
  /-- A bound that is not ordered or leaves the MIDI range. -/
  | boundRange (lowest highest : Int)
  | presetName (preset : Value)
  deriving Repr

/-- Why a file cannot be opened or a directory made. -/
inductive FileFault where
  /-- There is no such file, or no directory that it could be in. -/
  | missing
  /-- A file stands where a directory is to be made. -/
  | taken
  /-- A file stands where the path needs a directory. -/
  | notDirectory
  | isDirectory
  /-- The path, or a name in it, is too long. -/
  | nameLength
  deriving DecidableEq, Repr

def FileFault.number : FileFault → Nat
  | .missing => 2
  | .taken => 17
  | .notDirectory => 20
  | .isDirectory => 21
  | .nameLength => 36

def FileFault.text : FileFault → String
  | .missing => "No such file or directory"
  | .taken => "File exists"
  | .notDirectory => "Not a directory"
  | .isDirectory => "Is a directory"
  | .nameLength => "File name too long"

/-- What a number is too large for. -/
inductive Excess where
  /-- An integer is beyond the floating-point numbers. -/
  | floating
  /-- An infinite number is beyond the integers. -/
  | infinite
  /-- An infinite number is beyond the fractions. -/
  | infiniteFraction
  /-- A number of repetitions is beyond the sizes of this world. -/
  | repetitions
  | repeatedText
  /-- The number of a character is beyond the words of the machine. -/
  | character
  deriving DecidableEq, Repr

def Excess.message : Excess → String
  | .floating => "int too large to convert to float"
  | .infinite => "cannot convert float infinity to integer"
  | .infiniteFraction => "cannot convert Infinity to integer ratio"
  | .repetitions => "cannot fit 'int' into an index-sized integer"
  | .repeatedText => "repeated string is too long"
  | .character => "Python int too large to convert to C int"

/-- Everything that can go wrong. -/
inductive Failure where
  | unknownPitchClass (name : Term)
  | unknownInterval (name : Term)
  | unknownChordQuality (name : Term)
  /-- The present branch of a search is a dead end. -/
  | deadEnd (cause : DeadEnd)
  | invalid (cause : Invalid)
  /-- A value is of the wrong kind. -/
  | mistyped (cause : Mistyped)
  | noSuchItem
  /-- A table has no entry under this key. -/
  | noSuchKey (key : Value)
  /-- A division by zero; the flag is set for floating-point numbers. -/
  | divisionByZero (float : Bool)
  /-- A fraction has the denominator zero. -/
  | zeroDenominator (num : Int)
  /-- A number is too large for its use. -/
  | overflow (excess : Excess)
  /-- A sequence would be too long to be held. -/
  | noRoom
  /-- A number does not fit the header of a file. -/
  | headerField
  /-- A file cannot be opened, or a directory not made. -/
  | file (fault : FileFault) (path : String)
  /-- An input is rejected; each flaw has its place. -/
  | rejected (subject : String) (flaws : List (List Place × Flaw))
  /-- A configuration text is not well formed. -/
  | malformedDocument
  /-- The parts of a document are nested too deep. -/
  | nesting
  /-- A text that is to be a time is none. -/
  | noTime
  deriving Repr

/-! ## Wording -/

def Term.plain : Term → String
  | .var v => v.text
  | .val v => v.plain

/-- The texts with commas between them, in brackets. -/
def bracketed (texts : List String) : String := "[" ++ ", ".intercalate texts ++ "]"

/-- The text of a domain whose values are in ascending order.  Values without gaps
are shown by their ends. -/
def domainText (contiguous : Bool) (values : List Value) : String :=
  match values.head?, values.getLast? with
  | some least, some greatest =>
    if contiguous then "Domain(" ++ least.plain ++ ".." ++ greatest.plain ++ ")"
    else "Domain(" ++ bracketed (values.map Value.quoted) ++ ")"
  | _, _ => "Domain()"

/-- Whether a closed range of numbers is as wide as a run of `count` integers.  If an end is
a floating-point number, the width is one and is rounded as such. -/
def spans (count : Nat) (least greatest : Value) : Bool :=
  match least.whole?, greatest.whole? with
  | some m, some n => n - m + 1 == count
  | _, _ =>
    match least.nearestFloat?, greatest.nearestFloat? with
    | some x, some y =>
      ((y.sub x).add .one).exactValue?.any fun z => z.order (.ratio count 1) == .eq
    | _, _ => false

/-- Whether values in ascending order are as many as a run of integers between their ends. -/
def isContiguous (values : List Value) : Bool :=
  match values.head?, values.getLast? with
  | some least, some greatest => spans values.length least greatest
  | _, _ => false

/-- The wording of a dead end. -/
def DeadEnd.message : DeadEnd → String
  | .outsideSpace p lo hi => "Pitch " ++ p.plain ++ " outside " ++ toString lo ++ "-" ++ toString hi
  | .notInDomain v d => v.quoted ++ " not in " ++ domainText (isContiguous d) d
  | .notAdmitted v => v.quoted ++ " not admitted"
  | .differentValues a b => a.quoted ++ " != " ++ b.quoted
  | .wrongDifference a b d => a.plain ++ " - " ++ b.plain ++ " != " ++ d.plain
  | .noSharedValue x y => x.text ++ " and " ++ y.text ++ " share no values"
  | .noValueLeft x => "no values left for " ++ x.text

/-- A value that a wording shows, and whether it shows it quoted. -/
inductive Shown where
  | plain (v : Value)
  | quoted (v : Value)

/-- What keeps a value from being shown. -/
def Shown.fault? : Shown → Option Value.TextFault
  | .plain v => v.plainFault?
  | .quoted v => v.quotedFault?

/-- The integer as a value that is shown. -/
def Shown.int (n : Int) : Shown := .plain (.int n)

/-- The values that the text of a domain shows. -/
def shownOfDomain (values : List Value) : List Shown :=
  if isContiguous values then (values.head?.toList ++ values.getLast?.toList).map .plain
  else values.map .quoted

/-- The values that the wording of a dead end shows. -/
def DeadEnd.shown : DeadEnd → List Shown
  | .outsideSpace p lo hi => [.plain p, .int lo, .int hi]
  | .notInDomain v d => .quoted v :: shownOfDomain d
  | .notAdmitted v => [.quoted v]
  | .differentValues a b => [.quoted a, .quoted b]
  | .wrongDifference a b d => [.plain a, .plain b, .plain d]
  | .noSharedValue _ _ => []
  | .noValueLeft _ => []

/-- What the value of an event part must be. -/
def EventPart.rule : EventPart → String
  | .pitch => "Pitch must be 0-127"
  | .velocity => "Velocity must be 0-127"
  | .channel => "Channel must be 0-15"
  | .start => "Start ticks must be >= 0"
  | .duration => "Duration ticks must be >= 0"

def fractionText (num : Int) (den : Nat) : String :=
  if den = 1 then toString num else toString num ++ "/" ++ toString den

/-- The most characters of a quoted text that a complaint about it shows. -/
def quotedPart (text : Value) : String := String.ofList (text.quoted.toList.take 200)

/-- The wording of an argument that is not acceptable. -/
def Invalid.message : Invalid → String
  | .spaceOrder lo hi =>
    "Lowest pitch must not exceed highest, got " ++ lo.plain ++ " > " ++ hi.plain
  | .negativeDistance d => "Interval distance must be >= 0, got " ++ d.plain
  | .negativeNamed name d => "Interval distance must be >= 0, got " ++ name ++ "=" ++ d.plain
  | .triadShape semitones =>
    "Triad intervals must ascend from unison within an octave: " ++
      bracketed (semitones.map Value.quoted)
  | .velocityRange v => "Velocity must be 0-127, got " ++ v.plain
  | .durationSign num den => "Duration must be > 0, got " ++ fractionText num den
  | .pitchClassNumber n => n.quoted ++ " is not a valid PitchClass"
  | .malformedInteger base text =>
    "invalid literal for int() with base " ++ toString base ++ ": " ++ quotedPart text
  | .malformedNumber text => "could not convert string to float: " ++ text.quoted
  | .characterNumber => "chr() arg not in range(0x110000)"
  | .time fault => fault.message
  | .tooManyDigits n =>
    "Exceeds the limit (4300 digits) for integer string conversion: value has " ++ toString n ++
      " digits; use sys.set_int_max_str_digits() to increase the limit"
  | .unwritable =>
    "Exceeds the limit (4300 digits) for integer string conversion; " ++
      "use sys.set_int_max_str_digits() to increase the limit"
  | .pitchArgument p =>
    "Invalid pitch: '" ++ p.plain ++ "'. Expected a MIDI number or a note name like 'C4'."
  | .negativeLimit n => "Limit must be >= 0, got " ++ n.plain
  | .limitCount => "Stop argument for islice() must be None or an integer: 0 <= x <= sys.maxsize."
  | .limitRange n greatest =>
    "Invalid limit: " ++ n.plain ++ ". Must be between 1 and " ++ toString greatest ++ "."
  | .unknownPreset p => "Unknown preset: '" ++ p.plain ++ "'. Expected one of: midi, piano."
  | .eventRange part v => part.rule ++ ", got " ++ v.plain
  | .tempoRange => "attribute must be in range 0..16777215"
  | .tickCount => "message time must be int in MIDI file"
  | .emptyExtreme greatest =>
    (if greatest then "max" else "min") ++ "() arg is an empty sequence"
  | .unrankedQuality => "tuple.index(x): x not in tuple"
  | .undefinedNumber => "cannot convert float NaN to integer"
  | .undefinedFraction => "cannot convert NaN to integer ratio"
  | .malformedFraction s => "Invalid literal for Fraction: " ++ Text.quoted s
  | .fileName => "embedded null byte"

def Invalid.shown : Invalid → List Shown
  | .spaceOrder lo hi => [.plain lo, .plain hi]
  | .negativeDistance d => [.plain d]
  | .negativeNamed _ d => [.plain d]
  | .triadShape semitones => semitones.map .quoted
  | .velocityRange v => [.plain v]
  | .durationSign num den => [.int num, .int den]
  | .pitchClassNumber n => [.quoted n]
  | .pitchArgument p => [.plain p]
  | .negativeLimit n => [.plain n]
  | .limitRange n _ => [.plain n]
  | .unknownPreset p => [.plain p]
  | .eventRange _ v => [.plain v]
  | _ => []

/-- The wording of a value of the wrong kind. -/
def Mistyped.message : Mistyped → String
  | .operands op l r =>
    "unsupported operand type(s) for " ++ op.symbol ++ ": '" ++ l ++ "' and '" ++ r ++ "'"
  | .extension into part =>
    "can only concatenate " ++ into ++ " (not \"" ++ part ++ "\") to " ++ into
  | .repetition count => "can't multiply sequence by non-int of type '" ++ count ++ "'"
  | .unordered c l r =>
    "'" ++ c.symbol ++ "' not supported between instances of '" ++ l ++ "' and '" ++ r ++ "'"
  | .negation kind => "bad operand type for unary -: '" ++ kind ++ "'"
  | .unhashable kind => "unhashable type: '" ++ kind ++ "'"
  | .noItems kind => "'" ++ kind ++ "' object is not iterable"
  | .notWhole kind => "'" ++ kind ++ "' object cannot be interpreted as an integer"
  | .unreadable kind =>
    "int() argument must be a string, a bytes-like object or a real number, not '" ++ kind ++ "'"
  | .notFraction _ => "argument should be a string or a Rational instance"
  | .notText kind => "expected string or bytes-like object, got '" ++ kind ++ "'"
  | .noFields kind => "'" ++ kind ++ "' object is not a mapping"
  | .arguments => "unexpected or missing arguments"
  | .voiceCount n =>
    "chordo takes 3 voices, optionally preceded by the root; got " ++ toString n
  | .dataByte => "data byte must be int"

/-- The wording of a flaw that a rule of this library found. -/
def Flaw.message? (flaw : Flaw) : Option String :=
  let found := match flaw with
    | .boundRange lo hi =>
      let bound := Value.list [.int lo, .int hi]
      some (bound, "Invalid bound: " ++ bound.quoted ++
        ". Expected [min, max] within 0-127 with min <= max.")
    | .presetName p => some (p, p.quoted ++ " is not a valid BoundPreset")
    | _ => none
  found.map fun (shown, text) =>
    "Value error, " ++
      (if shown.quotedFault?.isSome then Invalid.message .unwritable else text)

namespace Failure

def message : Failure → String
  | .unknownPitchClass name => "Unknown pitch class: " ++ name.plain
  | .unknownInterval name => "Unknown interval: " ++ name.plain
  | .unknownChordQuality name => "Unknown chord quality: " ++ name.plain
  | .deadEnd cause => cause.message
  | .invalid cause => cause.message
  | .mistyped cause => cause.message
  | .noSuchItem => "index out of range"
  | .noSuchKey key => key.quoted
  | .divisionByZero float => if float then "float division by zero" else "division by zero"
  | .zeroDenominator num => "Fraction(" ++ toString num ++ ", 0)"
  | .overflow excess => excess.message
  | .noRoom => ""
  | .headerField => "short format requires (-32768) <= number <= 32767"
  | .file fault path =>
    "[Errno " ++ toString fault.number ++ "] " ++ fault.text ++ ": " ++ Text.quoted path
  | .rejected subject flaws =>
    let errors := if flaws.length = 1 then "error" else "errors"
    toString flaws.length ++ " validation " ++ errors ++ " for " ++ subject
  | .malformedDocument => "malformed document"
  | .nesting => "maximum recursion depth exceeded"
  | .noTime => "'NoneType' object has no attribute 'groupdict'"

def shown : Failure → List Shown
  | .unknownPitchClass (.val v) => [.plain v]
  | .unknownInterval (.val v) => [.plain v]
  | .unknownChordQuality (.val v) => [.plain v]
  | .deadEnd cause => cause.shown
  | .invalid cause => cause.shown
  | .zeroDenominator num => [.int num]
  | _ => []

def ofTextFault : Value.TextFault → Failure
  | .unwritable => .invalid .unwritable
  | .unnamed residue => .noSuchKey (.ofQuantity residue)

/-- The failure if it can be worded, and otherwise the failure to word it. -/
def worded (f : Failure) : Failure :=
  match f.shown.findSome? Shown.fault? with
  | some fault => ofTextFault fault
  | none => f

/-- Ends a computation with a failure. -/
def raise {α : Type} (f : Failure) : Except Failure α := .error f.worded

end Failure

/-- The plain text of a value, if it has one. -/
def Value.requirePlain (v : Value) : Except Failure String :=
  match v.plainFault? with
  | some fault => .error (Failure.ofTextFault fault)
  | none => .ok v.plain

/-- The quoted text of a value, if it has one. -/
def Value.requireQuoted (v : Value) : Except Failure String :=
  match v.quotedFault? with
  | some fault => .error (Failure.ofTextFault fault)
  | none => .ok v.quoted

example :
    (Failure.deadEnd (.wrongDifference (.int 64) (.int 60) (.int 3))).message = "64 - 60 != 3" := by
  decide +kernel

end Consonance
