import Consonance.Value.Basic

/-!
# Terms

A term of a query is a value or a variable.  Terms are flat: a variable stands
for a whole value and never for a part of one.

A variable has the name that the caller gave it, or a number if a relation made
it for an argument that was left open.
-/

namespace Consonance

/-- A variable. -/
inductive Var where
  | named (name : String)
  /-- A variable made for an open argument. -/
  | fresh (number : Nat)
  deriving DecidableEq, Repr

def Var.text : Var → String
  | .named name => "_" ++ name
  | .fresh number => "_" ++ toString number

/-- A value or a variable. -/
inductive Term where
  | var (v : Var)
  | val (v : Value)
  deriving Repr

def Term.isVar : Term → Bool
  | .var _ => true
  | .val _ => false

abbrev Term.int (n : Int) : Term := .val (.int n)

end Consonance
