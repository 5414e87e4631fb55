import Consonance.Failure

/-!
# Named arguments

A call gives its arguments by name.  Every parameter without a default must be given, and
nothing else may be.  `Parameter.bind` puts the arguments in the order of the parameters.
-/

namespace Consonance

/-- A parameter of a call. -/
structure Parameter where
  name : String
  /-- The argument that is used if none is given. -/
  default? : Option Value

namespace Parameter

def required (name : String) : Parameter := ⟨name, none⟩

/-- A parameter that is absent unless it is given. -/
def optional (name : String) : Parameter := ⟨name, some .nothing⟩

def argument (given : List (Value × Value)) (p : Parameter) : Except Failure Value :=
  match (Value.field? p.name given).or p.default? with
  | some v => .ok v
  | none => .error (.mistyped .arguments)

/-- Whether a field is an argument for one of the parameters. -/
def isKnown (parameters : List Parameter) : Value × Value → Bool
  | (.text name, _) => parameters.any fun p => p.name == name
  | _ => false

/-- The arguments in the order of their parameters. -/
def bind (parameters : List Parameter) (given : List (Value × Value)) :
    Except Failure (List Value) :=
  if given.all (isKnown parameters) then parameters.mapM (argument given)
  else .error (.mistyped .arguments)

end Parameter

end Consonance
