import Consonance.Failure

/-!
# Answer streams

A search gives its answers one after the other and works each out only when it is
asked for.  A stream of answers ends, normally or with a failure, or it has a first
answer and a rest that is not worked out yet.

`append` goes on with a second stream where the first one ends normally.  `bind`
replaces each answer by a stream.  `take` asks for some number of answers and leaves
the rest alone, so that a failure beyond them is never met.
-/

namespace Consonance

/-- Answers that come one after the other. -/
inductive Answers (α : Type) where
  | done
  | raise (f : Failure)
  /-- An answer and the ones after it. -/
  | next (a : α) (rest : Unit → Answers α)

namespace Answers

variable {α β : Type}

def one (a : α) : Answers α := .next a fun _ => .done

def ofList : List α → Answers α
  | [] => .done
  | a :: rest => .next a fun _ => ofList rest

/-- The answers of one stream and then those of another. -/
def append : Answers α → (Unit → Answers α) → Answers α
  | .done, ys => ys ()
  | .raise f, _ => .raise f
  | .next a rest, ys => .next a fun _ => append (rest ()) ys

/-- Each answer replaced by a stream.  Answers that give nothing are passed over in a
loop. -/
def bind : Answers α → (α → Answers β) → Answers β
  | .done, _ => .done
  | .raise f, _ => .raise f
  | .next a rest, k =>
    match k a with
    | .done => bind (rest ()) k
    | .raise f => .raise f
    | .next b more => .next b fun _ => append (more ()) fun _ => bind (rest ()) k

/-- Each answer changed by a function. -/
def map (f : α → β) : Answers α → Answers β
  | .done => .done
  | .raise e => .raise e
  | .next a rest => .next (f a) fun _ => map f (rest ())

/-- The first answers, `n` of them or as many as there are, and what is left.
`earlier` holds the answers before them, the latest first. -/
def takeAfter (earlier : List α) :
    Nat → (Unit → Answers α) → Except Failure (List α × (Unit → Answers α))
  | 0, xs => .ok (earlier.reverse, xs)
  | n + 1, xs =>
    match xs () with
    | .done => .ok (earlier.reverse, fun _ => .done)
    | .raise f => .error f
    | .next a rest => takeAfter (a :: earlier) n rest

/-- The first answers, `n` of them or as many as there are, and what is left.  What is left
is not worked out, and neither is a stream of which no answer is wanted. -/
def take (n : Nat) (xs : Unit → Answers α) : Except Failure (List α × (Unit → Answers α)) :=
  takeAfter [] n xs

/-- All answers, after the ones that `earlier` holds, the latest first. -/
def allAfter (earlier : List α) : Answers α → Except Failure (List α)
  | .done => .ok earlier.reverse
  | .raise f => .error f
  | .next a rest => allAfter (a :: earlier) (rest ())

def all (xs : Answers α) : Except Failure (List α) := allAfter [] xs

/-! ## Laws -/

@[simp] theorem append_done (ys : Unit → Answers α) : append .done ys = ys () := rfl

@[simp] theorem append_next (a : α) (rest ys : Unit → Answers α) :
    append (.next a rest) ys = .next a fun _ => append (rest ()) ys := rfl

theorem append_none (xs : Answers α) : append xs (fun _ => .done) = xs := by
  induction xs with
  | done => rfl
  | raise f => rfl
  | next a rest ih =>
    simp only [append_next, ih]

theorem append_assoc (xs : Answers α) (ys zs : Unit → Answers α) :
    append (append xs ys) zs = append xs fun _ => append (ys ()) zs := by
  induction xs with
  | done => rfl
  | raise f => rfl
  | next a rest ih => simp only [append_next, ih]

theorem take_zero (xs : Unit → Answers α) : take 0 xs = .ok ([], xs) := rfl

@[simp] theorem bind_done (k : α → Answers β) : bind .done k = .done := rfl

/-- The answers that replace the first one come first. -/
theorem bind_next (a : α) (rest : Unit → Answers α) (k : α → Answers β) :
    bind (.next a rest) k = append (k a) fun _ => bind (rest ()) k := by
  simp only [bind]
  cases k a <;> rfl

end Answers

end Consonance
