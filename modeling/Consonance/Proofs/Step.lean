import Consonance.Proofs.Assignment
import Mathlib.Logic.Relation

/-!
# Steps of a state

Whatever a solver does to bindings and domains, it does in *steps* of two kinds: an
open variable is bound, or its domain is narrowed (`State.Step`).  The constructors
carry what the solver has checked when it makes the step.  So an invariant is shown
for the two kinds once, and then holds along every run of steps (`State.Steps`).

*Integers.*  `I` is a set of integers that the bindings and domains of a state
stay in.  A step on a variable with a domain cannot leave `I`, since domains only
shrink.  A step on a variable without one may take in a new integer, and that has
to be in `I`.  The integers that a solver works out from those of `I` are their sums
and differences (`Derived`).  So a term is *scoped* if it is over `I` and is
known or has a domain, unless `I` is closed under sums and differences anyway.

*Coherence.*  `State.Coherent` collects what every state of a search is: bindings
and domains are over `I`, the substitution is triangular, and no domain is empty.
The entry of a variable that is bound stays behind, and what the variable is bound
to stays inside it (`State.StaysIn`).
-/

namespace Consonance

/-! ## Integers in a set -/

/-- The integers of a set, their differences and their sums. -/
inductive Derived (I : Int → Prop) : Int → Prop where
  | same {n : Int} : I n → Derived I n
  | sub {m n : Int} : I m → I n → Derived I (m - n)
  | add {m n : Int} : I m → I n → Derived I (m + n)

theorem Derived.mono {I J : Int → Prop} {n : Int} (h : Derived I n) (hIJ : ∀ n, I n → J n) :
    Derived J n := by
  cases h with
  | same h => exact .same (hIJ _ h)
  | sub hm hn => exact .sub (hIJ _ hm) (hIJ _ hn)
  | add hm hn => exact .add (hIJ _ hm) (hIJ _ hn)

/-- The set has all differences and sums of its members. -/
def Closed (I : Int → Prop) : Prop := ∀ n, Derived I n → I n

theorem closed_true : Closed fun _ => True := fun _ _ => trivial

/-- The domain consists of integers of a set. -/
structure Domain.Over (I : Int → Prop) (d : Domain) : Prop where
  integral : d.Integral
  mem : ∀ n : Int, n ∈ d → I n

/-- The terms of a difference. -/
def Difference.terms (c : Difference) : List Term := [c.minuend, c.subtrahend, c.distance]

namespace Difference

theorem forall_terms {c : Difference} {P : Term → Prop} :
    (∀ a ∈ c.terms, P a) ↔ P c.minuend ∧ P c.subtrahend ∧ P c.distance := by
  simp [terms]

theorem minuend_mem (c : Difference) : c.minuend ∈ c.terms := (forall_terms.mp fun _ h => h).1

theorem subtrahend_mem (c : Difference) : c.subtrahend ∈ c.terms :=
  (forall_terms.mp fun _ h => h).2.1

theorem distance_mem (c : Difference) : c.distance ∈ c.terms := (forall_terms.mp fun _ h => h).2.2

end Difference

namespace State

/-- The term is known, or its open variable has a domain. -/
def Confined (s : State) (t : Term) : Prop :=
  ∀ y, s.walk t = .var y → ∃ d, s.stored? y = some d

/-- The term is known to be in the domain, or it is an open variable whose own domain lies
inside it. -/
def StaysIn (s : State) (d : Domain) : Term → Prop
  | .val v => ∃ n : Int, v = .int n ∧ n ∈ d
  | .var y => ∃ e, s.stored? y = some e ∧ ∀ n : Int, n ∈ e → n ∈ d

/-- What every state of a search over integers is. -/
structure Coherent (I : Int → Prop) (s : State) : Prop where
  /-- Variables are bound to variables and to integers of the set. -/
  bindings : ∀ b ∈ s.substitution, b.2.Over I
  /-- Domains consist of integers of the set. -/
  domains : ∀ x d, s.stored? x = some d → d.Over I
  /-- Bindings are made for open variables and to walked terms. -/
  triangular : s.substitution.Triangular
  occupied : ∀ x d, s.stored? x = some d → ∃ n : Int, n ∈ d
  /-- What a variable is bound to stays in its domain. -/
  inherited : ∀ x d, s.stored? x = some d → s.StaysIn d (s.walk (.var x))

theorem coherent_empty (I : Int → Prop) (space : PitchSpace) : (empty space).Coherent I where
  bindings _ hb := nomatch hb
  domains _ _ hd := nomatch hd
  triangular := trivial
  occupied _ _ hd := nomatch hd
  inherited _ _ hd := nomatch hd

theorem Coherent.withDifferences {I : Int → Prop} {s : State} (hs : s.Coherent I)
    (cs : List Difference) : Coherent I { s with differences := cs } :=
  ⟨hs.bindings, hs.domains, hs.triangular, hs.occupied, hs.inherited⟩

theorem Coherent.walk_walk {I : Int → Prop} {s : State} (hs : s.Coherent I) (t : Term) :
    s.walk (s.walk t) = s.walk t :=
  Substitution.walk_walk hs.triangular t

/-- The open variable that stands for a term is open. -/
theorem Coherent.walk_var {I : Int → Prop} {s : State} (hs : s.Coherent I) {t : Term} {x : Var}
    (h : s.walk t = .var x) : s.walk (.var x) = .var x := by
  rw [← h, hs.walk_walk]

theorem walk_over_of {J : Int → Prop} {σ : Substitution} (hσ : ∀ b ∈ σ, b.2.Over J) {t : Term}
    (ht : t.Over J) : (σ.walk t).Over J := by
  induction σ with
  | nil => exact ht
  | cons b earlier ih =>
      obtain ⟨x, u⟩ := b
      have hearlier := ih fun b hb => hσ b (List.mem_cons_of_mem _ hb)
      by_cases hw : Substitution.walk earlier t = .var x
      · rw [Substitution.walk_cons_self u hw]
        exact hσ (x, u) (List.mem_cons_self ..)
      · rw [Substitution.walk_cons_ne u hw]
        exact hearlier

theorem Coherent.walk_over {I J : Int → Prop} {s : State} (hs : s.Coherent I)
    (hIJ : ∀ n, I n → J n) {t : Term} (ht : t.Over J) : (s.walk t).Over J :=
  walk_over_of (fun b hb => (hs.bindings b hb).mono hIJ) ht

/-- A known term over a set of integers is an integer of it. -/
theorem Coherent.walk_int {I J : Int → Prop} {s : State} (hs : s.Coherent I)
    (hIJ : ∀ n, I n → J n) {t : Term} (ht : t.Over J) {v : Value} (h : s.walk t = .val v) :
    ∃ n, v = .int n ∧ J n := by
  have hw := hs.walk_over hIJ ht
  rwa [h] at hw

theorem Coherent.mem_of_walk {I J : Int → Prop} {s : State} (hs : s.Coherent I)
    (hIJ : ∀ n, I n → J n) {t : Term} (ht : t.Over J) {n : Int} (h : s.walk t = .int n) : J n := by
  obtain ⟨m, heq, hm⟩ := hs.walk_int hIJ ht h
  cases heq
  exact hm

/-- Open variables are picked from their domains, and the others follow. -/
def following (s : State) (pick : Assignment) : Assignment := fun x => (s.walk (.var x)).eval pick

theorem eval_following (s : State) (pick : Assignment) (t : Term) :
    t.eval (s.following pick) = (s.walk t).eval pick := by
  cases t with
  | var x => rfl
  | val v => rw [walk, Substitution.walk_val, Term.eval, Term.eval]

theorem Coherent.fits_following {I : Int → Prop} {s : State} (hs : s.Coherent I)
    {pick : Assignment} (hpick : ∀ x d, s.stored? x = some d → pick x ∈ d) :
    s.Fits (s.following pick) := by
  refine ⟨fun b hb => ?_, fun x d hd => ?_⟩
  · rw [eval_following, walk, ← Substitution.walk_bound hs.triangular hb]
    rfl
  · have hstay := hs.inherited x d hd
    show (s.walk (.var x)).eval pick ∈ d
    cases hw : s.walk (.var x) with
    | val v =>
        rw [hw] at hstay
        obtain ⟨n, rfl, hn⟩ := hstay
        exact hn
    | var y =>
        rw [hw] at hstay
        obtain ⟨e, he, hsub⟩ := hstay
        exact hsub _ (hpick y e he)

theorem Coherent.exists_pick {I : Int → Prop} {s : State} (hs : s.Coherent I) :
    ∃ pick : Assignment, ∀ x d, s.stored? x = some d → pick x ∈ d := by
  have hpick : ∀ x, ∃ n : Int, ∀ d, s.stored? x = some d → n ∈ d := by
    intro x
    cases hd : s.stored? x with
    | none => exact ⟨0, nofun⟩
    | some d =>
        obtain ⟨n, hn⟩ := hs.occupied x d hd
        exact ⟨n, fun e he => Option.some.inj he ▸ hn⟩
  exact Classical.skolem.mp hpick

/-- Bindings and domains alone can always be met. -/
theorem Coherent.exists_fits {I : Int → Prop} {s : State} (hs : s.Coherent I) :
    ∃ ρ, s.Fits ρ := by
  obtain ⟨pick, hpick⟩ := hs.exists_pick
  exact ⟨_, hs.fits_following hpick⟩

/-! ## Steps -/

/-- One change of bindings and domains. -/
inductive Step (I : Int → Prop) (s : State) : State → Prop where
  /-- An open variable is bound to another open variable or to an integer, which stays in
  its domain. -/
  | bound {x : Var} {t : Term} (isOpen : s.walk (.var x) = .var x) (walked : s.walk t = t)
      (ne : t ≠ .var x) (isOver : t.Over I) (inside : ∀ d, s.stored? x = some d → s.StaysIn d t) :
      Step I s (s.addBinding x t)
  /-- An open variable gets its first domain, or a domain inside the one it has. -/
  | narrowed {x : Var} {d : Domain} (isOpen : s.walk (.var x) = .var x) (isOver : d.Over I)
      (occupied : ∃ n : Int, n ∈ d)
      (inside : ∀ c, s.stored? x = some c → ∀ n : Int, n ∈ d → n ∈ c) :
      Step I s (s.put x d)

abbrev Steps (I : Int → Prop) : State → State → Prop := Relation.ReflTransGen (Step I)

section Invariants

variable {I : Int → Prop} {s t : State}

theorem Step.differences (h : Step I s t) : t.differences = s.differences := by
  cases h <;> rfl

theorem Step.space (h : Step I s t) : t.space = s.space := by
  cases h <;> rfl

/-- A known term keeps its value. -/
theorem Step.walk_val (h : Step I s t) {u : Term} {v : Value} (hu : s.walk u = .val v) :
    t.walk u = .val v := by
  cases h with
  | bound isOpen walked ne isOver inside =>
      rw [walk_addBinding_ne isOver (by rw [hu]; nofun), hu]
  | narrowed => exact hu

/-- What stays in a domain does so after a step. -/
theorem Step.staysIn (h : Step I s t) {d : Domain} {u : Term} (hu : s.StaysIn d (s.walk u)) :
    t.StaysIn d (t.walk u) := by
  cases hw : s.walk u with
  | val v =>
      rw [h.walk_val hw]
      rwa [hw] at hu
  | var z =>
      rw [hw] at hu
      obtain ⟨e, he, hed⟩ := hu
      cases h with
      | @bound x w isOpen walked ne isOver inside =>
          by_cases hx : z = x
          · subst hx
            rw [walk_addBinding_self isOver hw]
            have hin := inside e he
            cases w with
            | val v =>
                obtain ⟨n, hv, hn⟩ := hin
                exact ⟨n, hv, hed n hn⟩
            | var y =>
                obtain ⟨e', he', hsub⟩ := hin
                exact ⟨e', he', fun n hn => hed n (hsub n hn)⟩
          · have hne : s.walk u ≠ .var x := fun h => hx (Term.var.inj (hw.symm.trans h))
            rw [walk_addBinding_ne isOver hne, hw]
            exact ⟨e, he, hed⟩
      | @narrowed x c isOpen isOver occupied inside =>
          rw [walk_put, hw]
          by_cases hx : z = x
          · subst hx
            exact ⟨c, stored?_put_self s z c, fun n hn => hed n (inside e he n hn)⟩
          · exact ⟨e, (stored?_put_ne s c hx).trans he, hed⟩

/-- A confined term stays confined. -/
theorem Step.confined (h : Step I s t) {u : Term} (hu : s.Confined u) : t.Confined u := by
  intro y hy
  cases hw : s.walk u with
  | val v =>
      rw [h.walk_val hw] at hy
      cases hy
  | var z =>
      obtain ⟨d, hd⟩ := hu z hw
      have hstay : s.StaysIn d (s.walk u) := by
        rw [hw]
        exact ⟨d, hd, fun n hn => hn⟩
      have := h.staysIn hstay
      rw [hy] at this
      obtain ⟨e, he, -⟩ := this
      exact ⟨e, he⟩

/-- A step keeps a state coherent. -/
theorem Step.coherent (h : Step I s t) (hs : s.Coherent I) : t.Coherent I := by
  have hinherited : ∀ x d, s.stored? x = some d → t.StaysIn d (t.walk (.var x)) :=
    fun x d hd => h.staysIn (hs.inherited x d hd)
  cases h with
  | @bound x w isOpen walked ne isOver inside =>
      refine ⟨?_, hs.domains, ?_, hs.occupied, hinherited⟩
      · intro b hb
        rw [substitution_addBinding s x isOver] at hb
        rcases List.mem_cons.mp hb with rfl | hb
        · exact isOver
        · exact hs.bindings b hb
      · rw [substitution_addBinding s x isOver]
        exact ⟨isOpen, walked, ne, hs.triangular⟩
  | @narrowed x d isOpen isOver occupied inside =>
      refine ⟨hs.bindings, fun y e he => ?_, hs.triangular, fun y e he => ?_, fun y e he => ?_⟩
      all_goals by_cases hy : y = x
      · subst hy
        rw [stored?_put_self] at he
        cases he
        exact isOver
      · exact hs.domains y e ((stored?_put_ne s d hy).symm.trans he)
      · subst hy
        rw [stored?_put_self] at he
        cases he
        exact occupied
      · exact hs.occupied y e ((stored?_put_ne s d hy).symm.trans he)
      · subst hy
        rw [walk_put, isOpen]
        exact ⟨e, he, fun n hn => hn⟩
      · exact hinherited y e ((stored?_put_ne s d hy).symm.trans he)

/-- A step loses assignments and makes none up. -/
theorem Step.fits (h : Step I s t) {ρ : Assignment} (hρ : t.Fits ρ) : s.Fits ρ := by
  cases h with
  | bound isOpen walked ne isOver inside => exact ((fits_addBinding isOver).mp hρ).1
  | narrowed isOpen isOver occupied inside => exact ((fits_put inside).mp hρ).1

/-! ### Along runs of steps -/

theorem Steps.differences (h : Steps I s t) : t.differences = s.differences := by
  induction h with
  | refl => rfl
  | tail _ step ih => exact step.differences.trans ih

theorem Steps.space (h : Steps I s t) : t.space = s.space := by
  induction h with
  | refl => rfl
  | tail _ step ih => exact step.space.trans ih

/-- Bindings and domains change in the same way whatever differences are suspended. -/
theorem Steps.withDifferences (h : Steps I s t) (cs : List Difference) :
    Steps I { s with differences := cs } { t with differences := cs } := by
  induction h with
  | refl => exact .refl
  | tail _ step ih =>
      refine .tail ih ?_
      cases step with
      | bound isOpen walked ne isOver inside => exact .bound isOpen walked ne isOver inside
      | narrowed isOpen isOver occupied inside => exact .narrowed isOpen isOver occupied inside

theorem Steps.walk_val (h : Steps I s t) {u : Term} {v : Value} (hu : s.walk u = .val v) :
    t.walk u = .val v := by
  induction h with
  | refl => exact hu
  | tail _ step ih => exact step.walk_val ih

theorem Steps.fits (h : Steps I s t) {ρ : Assignment} (hρ : t.Fits ρ) : s.Fits ρ := by
  induction h with
  | refl => exact hρ
  | tail _ step ih => exact ih (step.fits hρ)

theorem Steps.confined (h : Steps I s t) {u : Term} (hu : s.Confined u) : t.Confined u := by
  induction h with
  | refl => exact hu
  | tail _ step ih => exact step.confined ih

theorem Steps.coherent (h : Steps I s t) (hs : s.Coherent I) : t.Coherent I := by
  induction h with
  | refl => exact hs
  | tail _ step ih => exact step.coherent ih

end Invariants

/-! ## Scoped terms -/

/-- The term is over a set of integers, and working with it cannot lead out of the set. -/
structure Scoped (I : Int → Prop) (s : State) (t : Term) : Prop where
  isOver : t.Over I
  /-- The term is known or has a domain, unless the set is closed. -/
  confined : Closed I ∨ s.Confined t

theorem Scoped.withDifferences {I : Int → Prop} {s : State} {t : Term} (ht : s.Scoped I t)
    (cs : List Difference) : Scoped I { s with differences := cs } t :=
  ⟨ht.isOver, ht.confined⟩

theorem Scoped.steps {I : Int → Prop} {s t : State} {u : Term} (hu : s.Scoped I u)
    (h : Steps I s t) : t.Scoped I u :=
  ⟨hu.isOver, hu.confined.imp id h.confined⟩

end State

end Consonance
