import Consonance.Proofs.Termination

/-!
# How operations fail

An operation over integers fails with a dead end, or else because the dead end cannot be worded:
it would show an integer that has too many digits.  That integer arises in the operation
(`Constraint.Arises`): it is in the state, in the constraint, or propagation comes to it.

*One operation.*  What is shown before propagation is in the state or in the constraint
(`Constraint.enter_blocked`), and propagation shows what it involves (`Ends.blocked`).  So an
operation on a reachable state has exactly the solutions that its constraint asks for, and it
fails with a dead end if the integers that arise can be written (`Reachable.post_exact`).

*Several operations.*  A run fails where one of its operations does (`State.postAll_blocked`).
-/

namespace Consonance

theorem Failure.blocked_of_raise {J : Int → Prop} {cause : DeadEnd} {α : Type} {f : Failure}
    (h : (Failure.raise (.deadEnd cause) : Except Failure α) = .error f)
    (hshown : ∀ sh ∈ cause.shown, sh.Over J) : f.Blocked J := by
  have hf : (Failure.deadEnd cause).worded = f := Except.error.inj h
  exact hf ▸ Failure.blocked_deadEnd hshown

namespace State

variable {I J : Int → Prop} {s t : State} {a b : Term} {f : Failure}

/-! ## Before propagation -/

/-- Where two variables share no value, none is shown. -/
theorem bindVar_blocked {x y : Var} (h : s.bindVar x y = .error f) : f.Blocked J := by
  have hmerged : ∀ m : Domain,
      (if m.isEmpty then Failure.raise (.deadEnd (.noSharedValue x y))
        else .ok ((s.put y m).addBinding x (.var y))) = .error f → f.Blocked J := by
    intro m hm
    split at hm
    next => exact Failure.blocked_of_raise hm (List.forall_mem_nil _)
    next => cases hm
  cases hd : s.stored? x with
  | none =>
      simp only [bindVar, hd] at h
      cases h
  | some d =>
      simp only [bindVar, hd] at h
      exact hmerged _ h

/-- Where two terms cannot be the same, the wording shows values of theirs. -/
theorem equate_blocked (hs : s.Elementary J) (ha : a.Over J) (hb : b.Over J)
    (h : s.equate a b = .error f) : f.Blocked J := by
  cases hwa : s.walk a with
  | val v =>
      have hequate := equate_proceeds_left hs ha hb (by rw [hwa]; rfl)
      rw [h] at hequate
      exact hequate
  | var x =>
      cases hwb : s.walk b with
      | val w =>
          have hequate := equate_proceeds hs ha hb (by rw [hwb]; rfl)
          rw [h] at hequate
          exact hequate
      | var y =>
          by_cases hxy : x = y
          · simp only [equate, hwa, hwb, Substitution.binding?, if_pos hxy] at h
            cases h
          · simp only [equate, hwa, hwb, Substitution.binding?, if_neg hxy] at h
            exact bindVar_blocked h

theorem settleDomain_blocked {x : Var} {d : Domain}
    (h : narrowVar.settleDomain s x d = .error f) : f.Blocked J := by
  unfold narrowVar.settleDomain at h
  split at h
  next => exact Failure.blocked_of_raise h (List.forall_mem_nil _)
  next =>
    cases hone : d.single? with
    | none =>
        simp only [hone] at h
        cases h
    | some v =>
        simp only [hone] at h
        cases h

/-- Where a term cannot be restricted, the wording shows its value at most. -/
theorem narrow_blocked (hs : s.Elementary J) (ha : a.Over J) {allowed : Allowed}
    (hallowed : allowed.Over fun _ => True) (h : s.narrow a allowed = .error f) :
    f.Blocked J := by
  cases hw : s.walk a with
  | val v =>
      obtain ⟨n, rfl, hn⟩ := hs.walk_val ha hw
      obtain ⟨admitted, hadmits, -⟩ := Allowed.admits_spec hallowed n
      simp only [narrow, hw, hadmits] at h
      cases admitted with
      | true => cases h
      | false =>
          have hraise : Failure.raise (.deadEnd (.notAdmitted (.int n))) =
              (.error f : Except Failure State) := h
          refine Failure.blocked_of_raise hraise fun sh hsh => ?_
          rcases List.mem_singleton.mp hsh with rfl
          exact ⟨n, rfl, hn⟩
  | var x =>
      simp only [narrow, hw] at h
      cases hd : s.stored? x with
      | none =>
          obtain ⟨e, he, -⟩ :=
            Allowed.toDomain_spec hallowed s.integral_spaceDomain fun _ _ _ => trivial
          simp only [narrowVar, hd, he] at h
          exact settleDomain_blocked h
      | some current =>
          obtain ⟨e, he, -⟩ := Allowed.toDomain_spec hallowed (hs.domains x current hd).integral
            fun _ _ _ => trivial
          simp only [narrowVar, hd, he] at h
          change (if _ then _ else narrowVar.settleDomain s x _) = _ at h
          split at h
          next => cases h
          next => exact settleDomain_blocked h

end State

/-! ## One operation -/

namespace Constraint

/-- The integer arises when the constraint is posted: it is in the state or it is a term of the
constraint, or propagation comes to it. -/
inductive Arises (c : Constraint) (s : State) : Int → Prop where
  | occurs {n : Int} (occurs : s.Occurs n) : Arises c s n
  | listed {n : Int} (listed : .int n ∈ c.terms) : Arises c s n
  | involved {w : State} {n : Int} (entered : c.enter s = .ok w) (involves : w.Involves n) :
      Arises c s n

variable {s : State} {c : Constraint} {f : Failure}

theorem Integral.terms (hc : c.Integral) : ∀ a ∈ c.terms, a.Over fun _ => True := by
  cases c with
  | equal a b =>
      exact List.forall_mem_cons.mpr ⟨hc.1, List.forall_mem_singleton.mpr hc.2⟩
  | restricted t allowed => exact List.forall_mem_singleton.mpr hc.1
  | apart a b d => exact Difference.forall_terms (c := ⟨a, b, d⟩).mpr hc

/-- A constraint that cannot be entered is blocked with integers of the state and its own. -/
theorem enter_blocked (hs : s.WellFormed fun _ => True) (hc : c.Integral)
    (h : c.enter s = .error f) : f.Blocked fun n => s.Occurs n ∨ .int n ∈ c.terms := by
  have helementary : s.Elementary fun n => s.Occurs n ∨ .int n ∈ c.terms :=
    hs.coherent.elementary.occurs.mono fun _ => .inl
  have hterms : ∀ a ∈ c.terms, a.Over fun n => s.Occurs n ∨ .int n ∈ c.terms := by
    intro a ha
    have hint := hc.terms a ha
    cases a with
    | var x => trivial
    | val v =>
        obtain ⟨n, rfl, -⟩ := hint
        exact ⟨n, rfl, .inr ha⟩
  cases c with
  | equal a b =>
      exact State.equate_blocked helementary (hterms a (by simp [terms]))
        (hterms b (by simp [terms])) h
  | restricted t allowed =>
      exact State.narrow_blocked helementary (hterms t (by simp [terms])) hc.2 h
  | apart a b d => cases h

end Constraint

namespace State

variable {s t : State} {c : Constraint} {f : Failure}

theorem WellFormed.integral {I : Int → Prop} (hs : s.WellFormed I) : s.Integral :=
  ⟨hs.coherent.elementary.mono fun _ _ => trivial, fun c hc a ha =>
    (hs.differences c hc a ha).isOver.mono fun _ _ => trivial⟩

/-- An operation that fails is blocked with integers that arise. -/
theorem post_blocked (hs : s.WellFormed fun _ => True) (hc : c.Integral)
    (h : c.post s = .error f) : f.Blocked (c.Arises s) := by
  rw [Constraint.post_eq] at h
  rcases bind_eq_error.mp h with h | ⟨w, hw, h⟩
  · exact (c.enter_blocked hs hc h).mono fun n hn => hn.elim .occurs .listed
  · have henters := enter_spec hs (hc.scoped s)
    rw [hw] at henters
    have hint := henters.1.integral
    exact (Ends.blocked (h ▸ ends_propagate hint) hint).mono fun n hn => .involved hw hn

/-! ## Several operations -/

/-- The integer arises when constraints are posted one after the other. -/
inductive ArisesAlong : State → List Constraint → Int → Prop where
  | first {s : State} {c : Constraint} {rest : List Constraint} {n : Int} (arises : c.Arises s n) :
      ArisesAlong s (c :: rest) n
  | later {s t : State} {c : Constraint} {rest : List Constraint} {n : Int}
      (taken : c.post s = .ok t) (later : ArisesAlong t rest n) : ArisesAlong s (c :: rest) n

/-- A run that fails is blocked with integers that arise along it. -/
theorem postAll_blocked (hs : s.WellFormed fun _ => True) {cs : List Constraint}
    (hcs : ∀ c ∈ cs, c.Integral) (h : s.postAll cs = .error f) : f.Blocked (s.ArisesAlong cs) := by
  induction cs generalizing s with
  | nil => cases h
  | cons c rest ih =>
      obtain ⟨hc, hrest⟩ := List.forall_mem_cons.mp hcs
      rcases bind_eq_error.mp h with herror | ⟨u, hu, h⟩
      · exact (post_blocked hs hc herror).mono fun n hn => .first hn
      · have htakes := post_takes hs (hc.scoped s)
        rw [hu] at htakes
        exact (ih htakes.1 hrest h).mono fun n hn => .later hu hn

end State

/-! ## Reachable states -/

/-- An operation on a reachable state keeps exactly the solutions that its constraint asks
for.  It fails only if there are none.  The failure is a dead end, or a dead end that cannot be
worded because an integer that arises has too many digits.  So it is a dead end if the integers
that arise can be written. -/
theorem Reachable.post_exact {space : PitchSpace} {s : State} (hs : Reachable space s)
    {c : Constraint} (hc : c.Integral) :
    match c.post s with
    | .ok t => ∀ ρ, t.Solution ρ ↔ s.Solution ρ ∧ c.Asks s ρ
    | .error f =>
      f.Blocked (c.Arises s) ∧
        ((∀ n, c.Arises s n → Number.isWritable n = true) → ∃ cause, f = .deadEnd cause) ∧
        ∀ ρ, ¬ (s.Solution ρ ∧ c.Asks s ρ) := by
  have htakes := State.post_takes hs.wellFormed (hc.scoped s)
  cases hr : c.post s with
  | ok t =>
      rw [hr] at htakes
      exact htakes.2.2.2
  | error f =>
      rw [hr] at htakes
      have hblocked := State.post_blocked hs.wellFormed hc hr
      exact ⟨hblocked, hblocked.exists_deadEnd, fun ρ hρ => htakes.2 ρ hρ.1 hρ.2⟩

/-- A variable that may be three or five is restricted to four. -/
theorem Reachable.post_exact_four :
    let x := Var.named "x"
    let s : State := ⟨[], [(x, ⟨[.int 3, .int 5]⟩)], [], .midi⟩
    let c : Constraint := .restricted (.var x) (.values [.int 4])
    Reachable .midi s ∧ c.Integral ∧ (∀ n, c.Arises s n → Number.isWritable n = true) ∧
      (∃ cause, c.post s = .error (.deadEnd cause)) ∧ ∀ ρ, ¬ (s.Solution ρ ∧ c.Asks s ρ) := by
  intro x s c
  have hs : Reachable .midi s :=
    .post (c := .restricted (.var x) (.values [.int 3, .int 5])) .empty
      ⟨trivial, [3, 5], rfl, fun _ _ => trivial⟩ (State.propagate_of_open nofun)
  have hc : c.Integral := ⟨trivial, [4], rfl, fun _ _ => trivial⟩
  have henter : c.enter s = .error (.deadEnd (.noValueLeft x)) := rfl
  have hsmall : ∀ n : Int, n ∈ [3, 5] → n.natAbs < 10 ^ 1 := by decide
  have hwritable : ∀ n, c.Arises s n → Number.isWritable n = true := by
    intro n hn
    cases hn with
    | occurs occurs =>
        obtain ⟨b, hb, -⟩ | ⟨y, d, hd, hmem⟩ | ⟨e, he, -⟩ := occurs
        · cases hb
        · obtain ⟨rfl, rfl⟩ := State.eq_of_lookup_single hd
          exact Number.isWritable_of_natAbs_lt (by decide) (hsmall n (Domain.mem_ofInts.mp hmem))
        · cases he
    | listed listed => cases List.mem_singleton.mp listed
    | involved entered => exact nomatch henter.symm.trans entered
  have hpost : c.post s = .error (.deadEnd (.noValueLeft x)) := rfl
  have hexact := hs.post_exact hc
  rw [hpost] at hexact
  obtain ⟨-, hdeadEnd, hnone⟩ := hexact
  obtain ⟨cause, hcause⟩ := hdeadEnd hwritable
  exact ⟨hs, hc, hwritable, ⟨cause, hpost.trans (congrArg Except.error hcause)⟩, hnone⟩

end Consonance
