import Consonance.Proofs.Exactness
import Consonance.Proofs.Stream

/-!
# Posting constraints in a search

A search posts constraints over given variables `V` and integers `I`, one after the
other, and drops a branch at a dead end.  Between two posts the state is *ready*
(`State.Ready`): it is well formed and settled, its differences are over `V` and `I`,
and the variables of `V` have domains, unless every integer is in `I`.

An *alternative* is what a search asks for on one branch (`Alternative`).  A state is
reached for it when its solutions are exactly those of an earlier state that the
alternative asks for (`State.Reaches`).  A goal with several alternatives reaches one
state for each that has solutions, in their order, and none for the others
(`State.Expands`).
-/

namespace Consonance

/-! ## Constraints over variables and integers -/

/-- The term is one of some variables or one of some integers. -/
def Term.Among (I : Int → Prop) (V : Var → Prop) : Term → Prop
  | .var x => V x
  | .val v => ∃ n, v = .int n ∧ I n

theorem Term.Among.isOver {I : Int → Prop} {V : Var → Prop} {t : Term} (h : t.Among I V) :
    t.Over I := by
  cases t with
  | var x => trivial
  | val v => exact h

namespace Constraint

/-- The constraint is over some variables and integers, and tests nothing. -/
def Among (I : Int → Prop) (V : Var → Prop) : Constraint → Prop
  | .equal a b => a.Among I V ∧ b.Among I V
  | .restricted t allowed => t.Among I V ∧ allowed.Over I ∧ ¬ allowed.IsTest
  | .apart a b d => a.Among I V ∧ b.Among I V ∧ d.Among I V

/-- The constraint holds under an assignment. -/
def Holds (ρ : Assignment) : Constraint → Prop
  | .equal a b => a.eval ρ = b.eval ρ
  | .restricted t allowed => allowed.Allows (t.eval ρ)
  | .apart a b d => a.eval ρ - b.eval ρ = d.eval ρ

theorem Among.asks_iff {I : Int → Prop} {V : Var → Prop} {c : Constraint} (hc : c.Among I V)
    (s : State) (ρ : Assignment) : c.Asks s ρ ↔ c.Holds ρ := by
  cases c with
  | equal a b => exact Iff.rfl
  | restricted t allowed => exact ⟨And.left, fun h => ⟨h, fun htest => absurd htest hc.2.2⟩⟩
  | apart a b d => exact Iff.rfl

end Constraint

namespace State

variable {I : Int → Prop} {V : Var → Prop} {s t u : State}

/-! ## Suspended differences

Propagation drops differences and never makes one, so what is suspended was posted. -/

theorem settleAll_sublist {cs pending : List Difference} (h : s.settleAll cs = .ok (t, pending)) :
    pending.Sublist cs := by
  induction cs generalizing s t pending with
  | nil =>
      cases h
      exact .slnil
  | cons c rest ih =>
      obtain ⟨⟨s', done⟩, -, h⟩ := bind_eq_ok.mp h
      obtain ⟨⟨t', pending'⟩, hrest, h⟩ := bind_eq_ok.mp h
      have hsub := ih hrest
      cases done with
      | true =>
          cases h
          exact hsub.cons c
      | false =>
          cases h
          exact hsub.cons_cons c

theorem propagate_sublist (h : s.propagate = .ok t) : t.differences.Sublist s.differences := by
  induction s using propagate.induct with
  | case1 s ih =>
      rw [propagate] at h
      obtain ⟨next, hnext, h⟩ := bind_eq_ok.mp h
      obtain ⟨⟨u, pending⟩, hr, hu⟩ := bind_eq_ok.mp hnext
      cases hu
      split at h
      next hbelow => exact (ih _ hbelow h).trans (settleAll_sublist hr)
      next =>
        cases h
        exact settleAll_sublist hr

/-- What is suspended after a post was suspended before it, in the same order, or it is the
difference that was posted. -/
theorem Enters.sublist {c : Constraint} (henters : Enters I s c (c.enter s))
    (h : c.post s = .ok t) : t.differences.Sublist (s.differences ++ c.posted) := by
  obtain ⟨u, hu, h⟩ := bind_eq_ok.mp ((c.post_eq s).symm.trans h)
  rw [hu] at henters
  rw [← henters.2.2.1]
  exact propagate_sublist h

theorem Enters.suspended {c : Constraint} (henters : Enters I s c (c.enter s))
    (h : c.post s = .ok t) {d : Difference} (hd : d ∈ t.differences) :
    d ∈ s.differences ∨ c = .apart d.minuend d.subtrahend d.distance := by
  refine (List.mem_append.mp ((henters.sublist h).subset hd)).imp id fun hposted => ?_
  cases c with
  | equal a b => cases hposted
  | restricted a allowed => cases hposted
  | apart a b e =>
      cases List.mem_singleton.mp hposted
      rfl

/-- What fits the new state fitted the old one, and meets the constraint unless that is only
suspended. -/
theorem Enters.fits {c : Constraint} (henters : Enters I s c (c.enter s))
    (h : c.post s = .ok t) {ρ : Assignment} (hρ : t.Fits ρ) :
    s.Fits ρ ∧ (c.posted = [] → c.Asks s ρ) := by
  obtain ⟨u, hu, hprop⟩ := bind_eq_ok.mp ((c.post_eq s).symm.trans h)
  rw [hu] at henters
  obtain ⟨hwf, -, -, hfits⟩ := henters
  have htakes := propagate_takes hwf
  rw [hprop] at htakes
  exact (hfits ρ).mp (htakes.2.1.fits hρ)

/-! ## Domains after a restriction -/

theorem settleDomain_confined {x : Var} {d : Domain} {a : Term} (ha : s.walk a = .var x)
    (h : narrowVar.settleDomain s x d = .ok u) : u.Confined a := by
  unfold narrowVar.settleDomain at h
  split at h
  next => cases h
  next =>
    cases hone : d.single? with
    | none =>
        simp only [hone] at h
        cases h
        intro y hy
        rw [walk_put, ha] at hy
        cases hy
        exact ⟨d, stored?_put_self s x d⟩
    | some v =>
        simp only [hone] at h
        cases h
        have hbound : ∃ w, ((s.put x d).addBinding x (.val v)).walk a = .val w := by
          unfold addBinding
          split <;> exact ⟨_, Substitution.walk_cons_self _ ha⟩
        obtain ⟨w, hw⟩ := hbound
        exact fun y hy => nomatch hw.symm.trans hy

/-- A term that was restricted is known or has a domain. -/
theorem narrow_confined {a : Term} {allowed : Allowed} (h : s.narrow a allowed = .ok u) :
    u.Confined a := by
  cases hw : s.walk a with
  | val v =>
      simp only [narrow, hw] at h
      obtain ⟨b, -, h⟩ := bind_eq_ok.mp h
      cases b with
      | true =>
          cases h
          intro y hy
          rw [hw] at hy
          cases hy
      | false => cases h
  | var x =>
      simp only [narrow, hw, narrowVar] at h
      cases hd : s.stored? x with
      | none =>
          simp only [hd] at h
          obtain ⟨d, -, h⟩ := bind_eq_ok.mp h
          exact settleDomain_confined hw h
      | some current =>
          simp only [hd] at h
          obtain ⟨d, -, h⟩ := bind_eq_ok.mp h
          split at h
          next =>
            cases h
            intro y hy
            rw [hw] at hy
            cases hy
            exact ⟨current, hd⟩
          next => exact settleDomain_confined hw h

theorem restrict_confined (hs : s.WellFormed I) {a : Term} {allowed : Allowed} (ha : a.Over I)
    (hsupplies : s.Supplies I allowed) (h : s.restrict a allowed = .ok t) : t.Confined a := by
  obtain ⟨w, hw, hprop⟩ := bind_eq_ok.mp h
  have hyields := narrow_yields hs.coherent ha (hsupplies.1.mono fun _ => .same) (.inl hsupplies)
  rw [hw] at hyields
  have htakes := propagate_takes (hs.steps hyields.1)
  rw [hprop] at htakes
  exact htakes.2.1.confined (narrow_confined hw)

/-! ## Ready states -/

/-- What a state is between two posts of a search. -/
structure Ready (I : Int → Prop) (V : Var → Prop) (s : State) : Prop where
  wellFormed : s.WellFormed I
  settled : s.Settled
  /-- The variables have domains, unless all integers are allowed. -/
  confined : (∀ n, I n) ∨ ∀ x, V x → s.Confined (.var x)
  /-- The differences are over the variables and integers. -/
  among : ∀ c ∈ s.differences, ∀ u ∈ c.terms, u.Among I V

theorem Ready.scoped (hs : s.Ready I V) {u : Term} (hu : u.Among I V) : s.Scoped I u := by
  refine ⟨hu.isOver, ?_⟩
  cases u with
  | var x => exact hs.confined.imp (fun hall n _ => hall n) fun hconf => hconf x hu
  | val v => exact .inr fun y hy => nomatch (Substitution.walk_val _ _).symm.trans hy

end State

/-! ## Alternatives -/

/-- What a search asks for on one branch. -/
structure Alternative where
  holds : Assignment → Prop
  /-- The differences that it may leave suspended. -/
  suspends : Difference → Prop
  confines : Var → Prop

namespace Alternative

/-- Assignments with a property, and nothing more. -/
def asking (P : Assignment → Prop) : Alternative := ⟨P, fun _ => False, fun _ => False⟩

/-- What two alternatives ask for together. -/
def both (A B : Alternative) : Alternative where
  holds ρ := A.holds ρ ∧ B.holds ρ
  suspends c := A.suspends c ∨ B.suspends c
  confines x := A.confines x ∨ B.confines x

/-- What a constraint asks for. -/
def posting (c : Constraint) : Alternative where
  holds ρ := c.Holds ρ
  suspends d := c = .apart d.minuend d.subtrahend d.distance
  confines x := ∃ allowed, c = .restricted (.var x) allowed

end Alternative

namespace State

variable {I : Int → Prop} {V : Var → Prop} {s t u : State}

/-- The state is reached for an alternative. -/
structure Reaches (I : Int → Prop) (V : Var → Prop) (s : State) (A : Alternative) (t : State) :
    Prop where
  ready : t.Ready I V
  advances : Advances I s t
  solution : ∀ ρ, t.Solution ρ ↔ s.Solution ρ ∧ A.holds ρ
  suspended : ∀ c ∈ t.differences, c ∈ s.differences ∨ A.suspends c
  confined : ∀ x, A.confines x → t.Confined (.var x)

theorem Reaches.trans {W : Var → Prop} {A B : Alternative} (h : s.Reaches I V A t)
    (h' : t.Reaches I W B u) : s.Reaches I W (A.both B) u := by
  refine ⟨h'.ready, h.advances.trans h'.advances, fun ρ => ?_, fun c hc => ?_, fun x hx => ?_⟩
  · rw [h'.solution ρ, h.solution ρ, and_assoc, Alternative.both]
  · rcases h'.suspended c hc with hc | hB
    · exact (h.suspended c hc).imp id .inl
    · exact .inr (.inr hB)
  · rcases hx with hx | hx
    · exact h'.advances.confined (h.confined x hx)
    · exact h'.confined x hx

/-- Asking for more that is known, or for less than what is left open, changes nothing. -/
theorem Reaches.congr {A B : Alternative} (h : s.Reaches I V A t)
    (holds : ∀ ρ, s.Solution ρ → (A.holds ρ ↔ B.holds ρ))
    (suspends : ∀ c, A.suspends c → B.suspends c) (confines : ∀ x, B.confines x → A.confines x) :
    s.Reaches I V B t :=
  ⟨h.ready, h.advances, fun ρ => (h.solution ρ).trans (and_congr_right (holds ρ)),
    fun c hc => (h.suspended c hc).imp id (suspends c), fun x hx => h.confined x (confines x hx)⟩

theorem Ready.reaches_self (hs : s.Ready I V) {A : Alternative} (holds : ∀ ρ, A.holds ρ)
    (confines : ∀ x, ¬ A.confines x) : s.Reaches I V A s :=
  ⟨hs, .refl, fun ρ => ⟨fun h => ⟨h, holds ρ⟩, And.left⟩, fun _ hc => .inl hc,
    fun x hx => absurd hx (confines x)⟩

/-- The outcome of a post: the state reached, or a failure that blocks the branch when no
solution is asked for. -/
def Posts (I : Int → Prop) (V : Var → Prop) (s : State) (A : Alternative) :
    Except Failure State → Prop
  | .ok t => s.Reaches I V A t
  | .error f => f.Blocked (Derived I) ∧ ∀ ρ, s.Solution ρ → ¬ A.holds ρ

theorem Posts.ready {A : Alternative} {r : Except Failure State} (h : s.Posts I V A r)
    (hr : r = .ok t) : t.Ready I V := by
  rw [hr] at h
  exact Reaches.ready h

/-- The new state has a property, or the failure is blocked with integers of a set. -/
def Kept (J : Int → Prop) (K : State → Prop) : Except Failure State → Prop
  | .ok t => K t
  | .error f => f.Blocked J

theorem Posts.kept {A : Alternative} {K : State → Prop} {r : Except Failure State}
    (h : s.Posts I V A r) (hK : ∀ t, r = .ok t → K t) : Kept (Derived I) K r := by
  cases r with
  | ok t => exact hK t rfl
  | error f => exact h.1

/-- A constraint that is posted in a ready state leaves a ready state. -/
theorem Ready.post (hs : s.Ready I V) {c : Constraint} (hc : c.Among I V) :
    s.Posts I V (.posting c) (c.post s) := by
  have hscoped : c.Scoped I s := by
    cases c with
    | equal a b => exact ⟨hs.scoped hc.1, hs.scoped hc.2⟩
    | restricted a allowed => exact ⟨hc.1.isOver, hc.2.1, fun htest => absurd htest hc.2.2⟩
    | apart a b d => exact ⟨hs.scoped hc.1, hs.scoped hc.2.1, hs.scoped hc.2.2⟩
  have htakes := (post_takes hs.wellFormed hscoped).congr fun ρ _ => hc.asks_iff s ρ
  cases hr : c.post s with
  | error f =>
      rw [hr] at htakes
      exact htakes
  | ok t =>
      rw [hr] at htakes
      obtain ⟨hwf, hadv, hset, hiff⟩ := htakes
      have hsuspended : ∀ d ∈ t.differences,
          d ∈ s.differences ∨ (Alternative.posting c).suspends d :=
        fun d hd => (enter_spec hs.wellFormed hscoped).suspended hr hd
      refine ⟨⟨hwf, hset, ?_, fun d hd u hu => ?_⟩, hadv, hiff, hsuspended, fun x hx => ?_⟩
      · exact hs.confined.imp id fun hconf x hx => hadv.confined (hconf x hx)
      · rcases hsuspended d hd with hd | rfl
        · exact hs.among d hd u hu
        · exact Difference.forall_terms.mpr hc u hu
      · obtain ⟨allowed, rfl⟩ := hx
        exact restrict_confined hs.wellFormed hscoped.1 hscoped.2 hr

/-! ## Several alternatives -/

/-- The states that a goal reaches: one for each alternative that has solutions, in order. -/
inductive Expands (I : Int → Prop) (V : Var → Prop) (s : State) :
    List Alternative → List State → Prop where
  | nil : Expands I V s [] []
  | dead {A : Alternative} {As : List Alternative} {ts : List State}
      (empty : ∀ ρ, s.Solution ρ → ¬ A.holds ρ) (rest : Expands I V s As ts) :
      Expands I V s (A :: As) ts
  /-- The first alternative leads to a state. -/
  | live {A : Alternative} {t : State} {As : List Alternative} {ts : List State}
      (reaches : s.Reaches I V A t) (rest : Expands I V s As ts) :
      Expands I V s (A :: As) (t :: ts)

theorem Expands.append {As Bs : List Alternative} {ts us : List State}
    (h : s.Expands I V As ts) (h' : s.Expands I V Bs us) :
    s.Expands I V (As ++ Bs) (ts ++ us) := by
  induction h with
  | nil => exact h'
  | dead empty _ ih => exact .dead empty ih
  | live reaches _ ih => exact .live reaches ih

/-- Every state that is reached is reached for one of the alternatives. -/
theorem Expands.exists_alternative {As : List Alternative} {ts : List State}
    (h : s.Expands I V As ts) (ht : t ∈ ts) : ∃ A ∈ As, s.Reaches I V A t := by
  induction h with
  | nil => cases ht
  | dead _ _ ih =>
      obtain ⟨A, hA, hreaches⟩ := ih ht
      exact ⟨A, List.mem_cons_of_mem _ hA, hreaches⟩
  | live reaches _ ih =>
      rcases List.mem_cons.mp ht with rfl | ht
      · exact ⟨_, List.mem_cons_self .., reaches⟩
      · obtain ⟨A, hA, hreaches⟩ := ih ht
        exact ⟨A, List.mem_cons_of_mem _ hA, hreaches⟩

/-- An alternative with a solution has a state. -/
theorem Expands.exists_state {As : List Alternative} {ts : List State} (h : s.Expands I V As ts)
    {A : Alternative} (hA : A ∈ As) {ρ : Assignment} (hρ : s.Solution ρ) (hAρ : A.holds ρ) :
    ∃ t ∈ ts, s.Reaches I V A t := by
  induction h with
  | nil => cases hA
  | dead empty _ ih =>
      rcases List.mem_cons.mp hA with rfl | hA
      · exact absurd hAρ (empty ρ hρ)
      · exact ih hA
  | @live A' t _ _ reaches _ ih =>
      rcases List.mem_cons.mp hA with rfl | hA
      · exact ⟨t, List.mem_cons_self .., reaches⟩
      · obtain ⟨u, hu, hreaches⟩ := ih hA
        exact ⟨u, List.mem_cons_of_mem _ hu, hreaches⟩

/-- Alternatives that come after another one, from the state that is reached for it. -/
theorem Expands.after {W : Var → Prop} {A : Alternative} {Bs : List Alternative}
    {us : List State} (h : s.Reaches I V A t) (h' : t.Expands I W Bs us) :
    s.Expands I W (Bs.map A.both) us := by
  induction h' with
  | nil => exact .nil
  | dead empty _ ih =>
      exact .dead (fun ρ hρ hAB => empty ρ ((h.solution ρ).mpr ⟨hρ, hAB.1⟩) hAB.2) ih
  | live reaches _ ih => exact .live (h.trans reaches) ih

/-- Alternatives that come after one without solutions. -/
theorem expands_nil {A : Alternative} (hA : ∀ ρ, s.Solution ρ → ¬ A.holds ρ)
    (Bs : List Alternative) : s.Expands I V (Bs.map A.both) [] := by
  induction Bs with
  | nil => exact .nil
  | cons B Bs ih => exact .dead (fun ρ hρ hAB => hA ρ hρ hAB.1) ih

/-- Alternatives after alternatives: the earlier ones change slowest. -/
theorem Expands.product {W : Var → Prop} {As Bs : List Alternative} {ts : List State}
    {uss : List (List State)} (h : s.Expands I V As ts)
    (h' : List.Forall₂ (fun t us => t.Expands I W Bs us) ts uss) :
    s.Expands I W (As.flatMap fun A => Bs.map A.both) uss.flatten := by
  induction h generalizing uss with
  | nil =>
      cases h'
      exact .nil
  | dead empty _ ih => exact (expands_nil empty Bs).append (ih h')
  | live reaches _ ih =>
      cases h' with
      | cons hfirst hrest => exact (Expands.after reaches hfirst).append (ih hrest)

end State

/-- An integer of the set has too many digits to be written. -/
def Failure.Unwritable (J : Int → Prop) (f : Failure) : Prop :=
  f = .invalid .unwritable ∧ ∃ n, J n ∧ Number.isWritable n = false

theorem Failure.Unwritable.mono {I J : Int → Prop} {f : Failure} (h : f.Unwritable I)
    (hIJ : ∀ n, I n → J n) : f.Unwritable J :=
  ⟨h.1, h.2.imp fun n hn => ⟨hIJ n hn.1, hn.2⟩⟩

/-- The goal of an operation reaches the new state, or none at a dead end. -/
theorem Goal.lift_gives {I J : Int → Prop} {V : Var → Prop} {s : State} {A : Alternative}
    {K : State → Prop} {operation : State → Except Failure State}
    (h : s.Posts I V A (operation s)) (hK : State.Kept J K (operation s)) :
    (Goal.lift operation s).Gives (Failure.Unwritable J) (fun t => K t ∧ s.Reaches I V A t)
      (s.Expands I V [A]) := by
  unfold Goal.lift
  cases hr : operation s with
  | ok t =>
      rw [hr] at h hK
      exact Answers.gives_one ⟨hK, h⟩ (.live h .nil)
  | error f =>
      rw [hr] at h hK
      cases hK with
      | deadEnd cause => exact Answers.gives_done (.dead h.2 .nil)
      | unwritable shows mem long => exact Answers.gives_raise ⟨rfl, _, mem, long⟩

end Consonance
