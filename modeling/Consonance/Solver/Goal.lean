import Consonance.Solver.Answers
import Consonance.Solver.Propagation

/-!
# Goals

A goal takes a state to the states in which it holds.  No state means that the goal
fails on this branch, and several are alternatives, which come in a fixed order.

A primitive goal lifts an operation of states.  A dead end of the operation is no
state, and any other failure ends the search (`Goal.lift`).

`conjoin` runs each goal on every state of the ones before it.  `disjoin` runs each
goal on the same state.  `label` gives its terms every value they may take, in
ascending order and the first term slowest.
-/

namespace Consonance

abbrev Goal := State → Answers State

namespace Goal

/-- The goal that holds as things are. -/
def succeed : Goal := fun s => .one s

def fail : Goal := fun _ => .done

/-- The goal of an operation.  A dead end drops the branch. -/
def lift (operation : State → Except Failure State) : Goal := fun s =>
  match operation s with
  | .ok next => .one next
  | .error (.deadEnd _) => .done
  | .error f => .raise f

/-- Two terms are equal. -/
def eq (a b : Term) : Goal := lift fun s => s.bind a b

/-- A term is among what a restriction allows. -/
def inDomain (t : Term) (allowed : Allowed) : Goal := lift fun s => s.restrict t allowed

/-- A term less another one is a third. -/
def difference (a b d : Term) : Goal := lift fun s => s.assertDifference a b d

/-- The second goal on every state of the first. -/
def both (g h : Goal) : Goal := fun s => (g s).bind h

def conjoin : List Goal → Goal
  | [] => succeed
  | g :: rest => rest.foldl both g

/-- Any of the goals holds. -/
def disjoin : List Goal → Goal
  | [] => fail
  | g :: rest => fun s => (g s).append fun _ => disjoin rest s

/-- Any of the clauses holds, and a clause holds when all its goals do. -/
def conde (clauses : List (List Goal)) : Goal := disjoin (clauses.map conjoin)

/-- The goal that is made once the state is known. -/
def project (build : State → Except Failure Goal) : Goal := fun s =>
  match build s with
  | .ok g => g s
  | .error f => .raise f

/-- The terms take each value they may take. -/
def label : List Term → Goal
  | [] => succeed
  | t :: rest => fun s =>
    match s.candidates t with
    | .ok values => (Answers.ofList values).bind fun v => both (eq t (.val v)) (label rest) s
    | .error f => .raise f

end Goal

end Consonance
