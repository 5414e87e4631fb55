import Consonance.Proofs.IntegerDomain
import Consonance.Solver.Propagation

/-!
# Assignments and solutions

An *assignment* gives every variable an integer.  Under it a term stands for an
integer (`Term.eval`), so it can agree with the bindings of a substitution
(`Substitution.Respects`), stay in the domains of a state (`State.Fits`) and keep
its differences as well (`State.Solution`).  These are the solutions of a state,
and what an operation does is said by what it does to them.

Bindings are read in the order in which they were made, so agreeing with them is
enough for walking to keep the integer of a term (`eval_walk`), whatever the
substitution looks like.  Substitutions that a search builds are *triangular*: a
binding is made for an open variable, and its target is walked already.  Walking
a second time changes nothing then (`walk_walk`).
-/

namespace Consonance

abbrev Assignment := Var → Int

/-- What a term stands for under an assignment.  Terms over integers are variables and
integers, and every value that is no whole number counts as zero. -/
def Term.eval (ρ : Assignment) : Term → Int
  | .var x => ρ x
  | .val v => v.whole?.getD 0

@[simp] theorem Term.eval_var (ρ : Assignment) (x : Var) : (Term.var x).eval ρ = ρ x := rfl

@[simp] theorem Term.eval_int (ρ : Assignment) (n : Int) : (Term.val (.int n)).eval ρ = n := rfl

/-- The term is a variable or an integer of a set. -/
def Term.Over (I : Int → Prop) : Term → Prop
  | .var _ => True
  | .val v => ∃ n, v = .int n ∧ I n

theorem Term.over_int {I : Int → Prop} {n : Int} (h : I n) : (Term.val (.int n)).Over I :=
  ⟨n, rfl, h⟩

theorem Term.Over.mono {I J : Int → Prop} {t : Term} (h : t.Over I) (hIJ : ∀ n, I n → J n) :
    t.Over J := by
  cases t with
  | var x => trivial
  | val v =>
      obtain ⟨n, rfl, hn⟩ := h
      exact over_int (hIJ n hn)

/-! ## Substitutions -/

namespace Substitution

/-- Every binding holds under the assignment. -/
def Respects (σ : Substitution) (ρ : Assignment) : Prop := ∀ b ∈ σ, ρ b.1 = b.2.eval ρ

@[simp] theorem respects_nil (ρ : Assignment) : Respects [] ρ := fun _ h => nomatch h

@[simp] theorem respects_cons {σ : Substitution} {x : Var} {t : Term} {ρ : Assignment} :
    Respects ((x, t) :: σ) ρ ↔ ρ x = t.eval ρ ∧ σ.Respects ρ := by
  simp [Respects]

theorem walk_cons_self {σ : Substitution} {x : Var} {u : Term} (t : Term)
    (h : walk σ u = .var x) : walk ((x, t) :: σ) u = t := by
  simp [walk, h]

theorem walk_cons_ne {σ : Substitution} {x : Var} {u : Term} (t : Term)
    (h : walk σ u ≠ .var x) : walk ((x, t) :: σ) u = walk σ u := by
  cases hw : walk σ u with
  | var y =>
      have hne : y ≠ x := fun he => h (by rw [hw, he])
      simp [walk, hw, hne]
  | val v => simp [walk, hw]

/-- Walking keeps the integer of a term. -/
theorem eval_walk {σ : Substitution} {ρ : Assignment} (h : σ.Respects ρ) (u : Term) :
    (walk σ u).eval ρ = u.eval ρ := by
  induction σ with
  | nil => rfl
  | cons b earlier ih =>
      obtain ⟨x, t⟩ := b
      obtain ⟨hx, hrest⟩ := respects_cons.mp h
      by_cases hw : walk earlier u = .var x
      · rw [walk_cons_self t hw, ← hx, ← ih hrest, hw]
        rfl
      · rw [walk_cons_ne t hw, ih hrest]

/-- Each binding is made for a variable that is open under the earlier ones, and its target
is walked under them. -/
def Triangular : Substitution → Prop
  | [] => True
  | (x, t) :: earlier =>
    walk earlier (.var x) = .var x ∧ walk earlier t = t ∧ t ≠ .var x ∧ Triangular earlier

theorem walk_walk {σ : Substitution} (h : σ.Triangular) (u : Term) :
    walk σ (walk σ u) = walk σ u := by
  induction σ with
  | nil => rfl
  | cons b earlier ih =>
      obtain ⟨x, t⟩ := b
      obtain ⟨-, ht, hne, hrest⟩ := h
      by_cases hw : walk earlier u = .var x
      · have hnot : walk earlier t ≠ .var x := by rwa [ht]
        rw [walk_cons_self t hw, walk_cons_ne t hnot, ht]
      · have hnot : walk earlier (walk earlier u) ≠ .var x := by rwa [ih hrest]
        rw [walk_cons_ne t hw, walk_cons_ne t hnot, ih hrest]

/-- A variable is walked like what it is bound to. -/
theorem walk_bound {σ : Substitution} (h : σ.Triangular) {x : Var} {t : Term} (hb : (x, t) ∈ σ) :
    walk σ (.var x) = walk σ t := by
  induction σ with
  | nil => exact nomatch hb
  | cons b earlier ih =>
      obtain ⟨y, u⟩ := b
      obtain ⟨hy, hu, hne, hrest⟩ := h
      rcases List.mem_cons.mp hb with heq | hb
      · cases heq
        have hnot : walk earlier t ≠ .var x := by rwa [hu]
        rw [walk_cons_self t hy, walk_cons_ne t hnot, hu]
      · have hsame := ih hrest hb
        simp only [walk, hsame]

end Substitution

/-! ## Differences and states -/

/-- The difference holds under the assignment. -/
def Difference.Holds (c : Difference) (ρ : Assignment) : Prop :=
  c.minuend.eval ρ - c.subtrahend.eval ρ = c.distance.eval ρ

namespace State

/-- The assignment agrees with the bindings and stays in the domains. -/
structure Fits (s : State) (ρ : Assignment) : Prop where
  bindings : s.substitution.Respects ρ
  domains : ∀ x d, s.stored? x = some d → ρ x ∈ d

/-- The assignment satisfies all that the state knows. -/
structure Solution (s : State) (ρ : Assignment) : Prop where
  fits : s.Fits ρ
  differences : ∀ c ∈ s.differences, c.Holds ρ

theorem eval_walk {s : State} {ρ : Assignment} (h : s.Fits ρ) (t : Term) :
    (s.walk t).eval ρ = t.eval ρ :=
  Substitution.eval_walk h.bindings t

/-! ## Stored domains -/

theorem lookup_putEntry (x y : Var) (d : Domain) (entries : List (Var × Domain)) :
    (putEntry x d entries).lookup y = if y = x then some d else entries.lookup y := by
  induction entries with
  | nil =>
      by_cases h : y = x
      · simp [putEntry, h]
      · simp [putEntry, List.lookup_cons, beq_false_of_ne h, h]
  | cons b rest ih =>
      obtain ⟨z, e⟩ := b
      by_cases h : y = z
      · subst h
        by_cases hx : y = x <;> simp [putEntry, hx]
      · by_cases hz : z = x
        · subst hz
          simp [putEntry, List.lookup_cons, beq_false_of_ne h, h]
        · simp [putEntry, hz, List.lookup_cons, beq_false_of_ne h, ih]

theorem eq_of_lookup_single {x y : Var} {d e : Domain} (h : [(x, d)].lookup y = some e) :
    y = x ∧ e = d := by
  rw [List.lookup_cons] at h
  split at h
  next hy =>
    cases h
    exact ⟨beq_iff_eq.mp hy, rfl⟩
  next => cases h

@[simp] theorem stored?_put_self (s : State) (x : Var) (d : Domain) :
    (s.put x d).stored? x = some d := by
  simp [put, stored?, lookup_putEntry]

theorem stored?_put_ne (s : State) {x y : Var} (d : Domain) (h : y ≠ x) :
    (s.put x d).stored? y = s.stored? y := by
  simp [put, stored?, lookup_putEntry, h]

@[simp] theorem walk_put (s : State) (x : Var) (d : Domain) (t : Term) :
    (s.put x d).walk t = s.walk t := rfl

@[simp] theorem stored?_addBinding (s : State) (x y : Var) (t : Term) :
    (s.addBinding x t).stored? y = s.stored? y := rfl

theorem substitution_addBinding {I : Int → Prop} (s : State) (x : Var) {t : Term}
    (ht : t.Over I) : (s.addBinding x t).substitution = (x, t) :: s.substitution := by
  cases t with
  | var y => rfl
  | val v =>
      obtain ⟨n, rfl, -⟩ := ht
      rfl

theorem walk_addBinding_self {I : Int → Prop} {s : State} {x : Var} {t u : Term}
    (ht : t.Over I) (h : s.walk u = .var x) : (s.addBinding x t).walk u = t := by
  rw [walk, substitution_addBinding s x ht]
  exact Substitution.walk_cons_self t h

theorem walk_addBinding_ne {I : Int → Prop} {s : State} {x : Var} {t u : Term}
    (ht : t.Over I) (h : s.walk u ≠ .var x) : (s.addBinding x t).walk u = s.walk u := by
  rw [walk, substitution_addBinding s x ht]
  exact Substitution.walk_cons_ne t h

/-- Bindings and domains are all that an assignment has to fit. -/
theorem fits_withDifferences {s : State} {ρ : Assignment} (cs : List Difference) :
    Fits { s with differences := cs } ρ ↔ s.Fits ρ :=
  ⟨fun h => ⟨h.bindings, h.domains⟩, fun h => ⟨h.bindings, h.domains⟩⟩

theorem solution_iff {s : State} {ρ : Assignment} :
    s.Solution ρ ↔ s.Fits ρ ∧ ∀ c ∈ s.differences, c.Holds ρ :=
  ⟨fun h => ⟨h.fits, h.differences⟩, fun h => ⟨h.1, h.2⟩⟩

/-! ## What a change of the state does to its assignments -/

/-- Binding a variable keeps the assignments that give it what the target stands for. -/
theorem fits_addBinding {I : Int → Prop} {s : State} {x : Var} {t : Term} {ρ : Assignment}
    (ht : t.Over I) : (s.addBinding x t).Fits ρ ↔ s.Fits ρ ∧ ρ x = t.eval ρ := by
  constructor
  · rintro ⟨hb, hd⟩
    rw [substitution_addBinding s x ht] at hb
    obtain ⟨hx, hb⟩ := Substitution.respects_cons.mp hb
    exact ⟨⟨hb, hd⟩, hx⟩
  · rintro ⟨⟨hb, hd⟩, hx⟩
    refine ⟨?_, hd⟩
    rw [substitution_addBinding s x ht]
    exact Substitution.respects_cons.mpr ⟨hx, hb⟩

/-- Storing a domain inside the one there was keeps the assignments that stay in it. -/
theorem fits_put {s : State} {x : Var} {d : Domain} {ρ : Assignment}
    (h : ∀ c, s.stored? x = some c → ∀ n : Int, n ∈ d → n ∈ c) :
    (s.put x d).Fits ρ ↔ s.Fits ρ ∧ ρ x ∈ d := by
  constructor
  · rintro ⟨hb, hd⟩
    have hx : ρ x ∈ d := hd x d (stored?_put_self s x d)
    refine ⟨⟨hb, fun y e he => ?_⟩, hx⟩
    by_cases hy : y = x
    · subst hy
      exact h e he _ hx
    · exact hd y e ((stored?_put_ne s d hy).trans he)
  · rintro ⟨⟨hb, hd⟩, hx⟩
    refine ⟨hb, fun y e he => ?_⟩
    by_cases hy : y = x
    · subst hy
      rw [stored?_put_self] at he
      cases he
      exact hx
    · rw [stored?_put_ne s d hy] at he
      exact hd y e he

end State

end Consonance
