import Consonance.Value.Basic

/-!
# The members of a set

A set of numbers shows its members by *slot*.  There are more than twice as many slots as
members, or eight, and their number is a power of two.  The fingerprint of a member gives a
sequence of slots, and the member takes the first of them that is free.

A set with other members shows them in the order in which they came.
-/

namespace Consonance.Value

/-- The least number of the form `start * 2 ^ k` above a bound, for `k` up to `steps`. -/
def doubledAbove (bound : Nat) : (steps : Nat) → (start : Nat) → Nat
  | 0, start => start
  | steps + 1, start => if bound < start then start else doubledAbove bound steps (2 * start)

/-- The number of slots for some members. -/
def slotCount (members : Nat) : Nat :=
  if members ≤ 4 then 8 else doubledAbove (2 * members) members 8

/-- The slots that are tried together from one on: it and the nine after it, unless they
are beyond the last. -/
def slotsFrom (count slot : Nat) : List Nat :=
  if slot + 9 < count then (List.range 10).map (slot + ·) else [slot]

/-- The first free slot of the sequence from a slot on.  What is left of a fingerprint leads
from slot to slot. -/
def freeSlot (count : Nat) (taken : List Nat) : (steps : Nat) → (left slot : Nat) → Nat
  | 0, _, slot => slot
  | steps + 1, left, slot =>
    match (slotsFrom count slot).find? fun s => !taken.contains s with
    | some s => s
    | none => freeSlot count taken steps (left / 32) ((5 * slot + 1 + left / 32) % count)

/-- The fingerprint of a number as a word of the machine.  That of minus one is taken. -/
def wordOf (fingerprint : Int) : Nat :=
  ((if fingerprint = -1 then -2 else fingerprint) % 18446744073709551616).toNat

/-- The slots of some members, in order. -/
def seats (count : Nat) (taken : List Nat) : List Nat → List Nat
  | [] => []
  | word :: rest =>
    let slot := freeSlot count taken (count + 16) word (word % count)
    slot :: seats count (slot :: taken) rest

/-- The members of a set in the order in which it shows them. -/
def shownMembers (members : List Value) : List Value :=
  match members.mapM fun v => v.quantity?.bind Quantity.fingerprint with
  | none => members
  | some fingerprints =>
    let count := slotCount members.length
    let slots := (seats count [] (fingerprints.map wordOf)).zip members
    (List.range count).filterMap fun slot => slots.lookup slot

example : (shownMembers [.int 10, .int 3, .int 2]).map whole? = [some 2, some 10, some 3] := by
  decide +kernel

end Consonance.Value
