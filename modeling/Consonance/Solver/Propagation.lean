import Consonance.Solver.State

/-!
# Propagation

A step may give the suspended differences something new to work on.  A *pass*
settles each of them once, in order, and drops the ones that are done.
`State.propagate` makes passes until one of them changes nothing.

Passes come to an end because each one that changes anything lowers the *rank* of
the state.  The rank looks at the positions of the suspended differences that are
still open.  It counts those positions, then the ones among them without a domain,
then the values left in their domains.  A binding lowers the first count, a first
domain the second, and a smaller domain the third.

The operations `bind`, `restrict` and `assertDifference` make one step and
propagate.
-/

namespace Consonance

/-- How much of a state is open. -/
structure Rank where
  positions : Nat
  /-- Those of a variable without a domain. -/
  bare : Nat
  values : Nat
  deriving DecidableEq, Repr

namespace Rank

/-- Nothing is open. -/
def zero : Rank := ⟨0, 0, 0⟩

/-- Two ranks taken together. -/
def add (r q : Rank) : Rank := ⟨r.positions + q.positions, r.bare + q.bare, r.values + q.values⟩

/-- Whether a rank is lower than another one: by its first count that differs. -/
def Below (r q : Rank) : Prop :=
  r.positions < q.positions ∨
    r.positions = q.positions ∧ (r.bare < q.bare ∨ r.bare = q.bare ∧ r.values < q.values)

instance (r q : Rank) : Decidable (r.Below q) := by
  unfold Below
  infer_instance

end Rank

namespace State

def rankOfTerm (s : State) (t : Term) : Rank :=
  match s.walk t with
  | .val _ => .zero
  | .var x =>
    match s.stored? x with
    | none => ⟨1, 1, 0⟩
    | some d => ⟨1, 0, d.size⟩

def rankOfDifference (s : State) (c : Difference) : Rank :=
  (s.rankOfTerm c.minuend).add ((s.rankOfTerm c.subtrahend).add (s.rankOfTerm c.distance))

def rank (s : State) : Rank :=
  s.differences.foldr (fun c r => (s.rankOfDifference c).add r) .zero

/-- Settles each of some differences once.  Gives the state and the differences that
are not done. -/
def settleAll (s : State) : List Difference → Except Failure (State × List Difference)
  | [] => .ok (s, [])
  | c :: rest => do
    let (s, done) ← s.settle c
    let (s, pending) ← s.settleAll rest
    return (s, if done then pending else c :: pending)

/-- Settles each suspended difference once. -/
def pass (s : State) : Except Failure State := do
  let (s, pending) ← s.settleAll s.differences
  return { s with differences := pending }

/-- Settles the suspended differences until nothing changes any more. -/
def propagate (s : State) : Except Failure State := do
  let next ← s.pass
  if _ : next.rank.Below s.rank then next.propagate else return next
termination_by (s.rank.positions, s.rank.bare, s.rank.values)
decreasing_by
  rw [Prod.lex_def, Prod.lex_def]
  assumption

/-! ## Operations -/

def bind (s : State) (a b : Term) : Except Failure State := do (← s.equate a b).propagate

/-- Restricts a term. -/
def restrict (s : State) (t : Term) (allowed : Allowed) : Except Failure State := do
  (← s.narrow t allowed).propagate

/-- Posts the difference `a - b = d`. -/
def assertDifference (s : State) (a b d : Term) : Except Failure State :=
  propagate { s with differences := s.differences ++ [Difference.mk a b d] }

end State

end Consonance
