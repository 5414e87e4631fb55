import Consonance.Proofs.Settling

/-!
# Operations keep exactly the right solutions

A solution of a state fits its bindings and domains and meets its suspended differences.
An operation posts one constraint and propagates.  The state that it gives has exactly the
solutions that meet the constraint, and it fails only where there are none.

*Passes.*  A pass settles the differences one after the other (`settleAll_spec`).  Each one
is settled in the state that the ones before it have left, so what is kept along a pass is a
chain of steps.  The differences themselves change only at its end, and `Advances` leaves
them out of account.

*Propagation.*  Passes follow each other until the rank no longer falls, and the recursion
of the solver carries the induction (`propagate_takes`).  A last pass that grounds no term
leaves two open terms in each difference (`Settled`).

*Reachable states.*  The bindings and domains of every state that operations reach are well
formed (`Reachable.wellFormed`), so nothing has to be assumed of a state but how it came
about.
-/

namespace Consonance

namespace State

variable {I : Int → Prop} {s : State}

/-! ## Passes -/

/-- What every state of a search over integers is, with its differences. -/
structure WellFormed (I : Int → Prop) (s : State) : Prop where
  coherent : s.Coherent I
  differences : ∀ c ∈ s.differences, s.ScopedDifference I c

/-- A state is reached by steps and by changes of the suspended differences. -/
def Advances (I : Int → Prop) (s t : State) : Prop :=
  Steps I s { t with differences := s.differences }

theorem Advances.trans {t u : State} (h : Advances I s t) (h' : Advances I t u) :
    Advances I s u :=
  Relation.ReflTransGen.trans h (Steps.withDifferences h' s.differences)

theorem Advances.walk_val {t : State} (h : Advances I s t) {u : Term} {v : Value}
    (hu : s.walk u = .val v) : t.walk u = .val v :=
  Steps.walk_val (t := { t with differences := s.differences }) h hu

theorem Advances.confined {t : State} (h : Advances I s t) {u : Term} (hu : s.Confined u) :
    t.Confined u :=
  Steps.confined (t := { t with differences := s.differences }) h hu

theorem Advances.fits {t : State} (h : Advances I s t) {ρ : Assignment} (hρ : t.Fits ρ) :
    s.Fits ρ :=
  Steps.fits h ((fits_withDifferences _).mpr hρ)

theorem Advances.space {t : State} (h : Advances I s t) : t.space = s.space :=
  Steps.space (t := { t with differences := s.differences }) h

/-- Every suspended difference has at least two open terms. -/
def Settled (s : State) : Prop := ∀ c ∈ s.differences, 2 ≤ s.openTerms c

/-- The number of open terms of some differences. -/
def openPositions (s : State) (cs : List Difference) : Nat :=
  cs.foldr (fun c n => s.openTerms c + n) 0

theorem Steps.openTerms_le {t : State} (h : Steps I s t) (c : Difference) :
    t.openTerms c ≤ s.openTerms c := by
  have hterm : ∀ u, (t.walk u).isVar = true → (s.walk u).isVar = true := by
    intro u hu
    cases hw : s.walk u with
    | var x => rfl
    | val v =>
        rw [h.walk_val hw] at hu
        exact hu
  unfold openTerms
  rw [List.countP_map, List.countP_map]
  exact List.countP_mono_left fun u _ => hterm u

theorem Steps.openPositions_le {t : State} (h : Steps I s t) (cs : List Difference) :
    t.openPositions cs ≤ s.openPositions cs := by
  induction cs with
  | nil => exact Nat.le_refl _
  | cons c rest ih => exact Nat.add_le_add (h.openTerms_le c) ih

/-- What settling some differences gives: no assignment is lost and none is admitted.  If no
term became known on the way, every difference that waits has two open terms still. -/
def SettlesAll (I : Int → Prop) (s : State) (cs : List Difference) :
    Except Failure (State × List Difference) → Prop
  | .ok (t, pending) =>
    Steps I s t ∧ pending.Sublist cs ∧
      (∀ ρ, (t.Fits ρ ∧ ∀ c ∈ pending, c.Holds ρ) ↔ s.Fits ρ ∧ ∀ c ∈ cs, c.Holds ρ) ∧
      t.openPositions pending ≤ s.openPositions cs ∧
      (t.openPositions pending = s.openPositions cs → ∀ c ∈ pending, 2 ≤ t.openTerms c)
  | .error f => f.Blocked (Derived I) ∧ ∀ ρ, s.Fits ρ → ¬ ∀ c ∈ cs, c.Holds ρ

theorem SettlesAll.cons {c : Difference} {rest : List Difference} {u : State} {done : Bool}
    {r : Except Failure (State × List Difference)} (hc : Settles I s c (.ok (u, done)))
    (h : SettlesAll I u rest r) :
    SettlesAll I s (c :: rest)
      (r >>= fun result => pure (result.1, if done then result.2 else c :: result.2)) := by
  obtain ⟨hu, hfits, hopen⟩ := hc
  cases r with
  | error f =>
      refine ⟨h.1, fun ρ hρ hall => ?_⟩
      obtain ⟨hcρ, hrest⟩ := List.forall_mem_cons.mp hall
      exact h.2 ρ ((hfits ρ).mpr ⟨hρ, hcρ⟩).1 hrest
  | ok result =>
      obtain ⟨t, pending⟩ := result
      obtain ⟨ht, hsub, hiff, hle, hwait⟩ := h
      have hurest := hu.openPositions_le rest
      have hctu := ht.openTerms_le c
      have hcus := hu.openTerms_le c
      have hsum : s.openPositions (c :: rest) = s.openTerms c + s.openPositions rest := rfl
      cases done with
      | true =>
          refine ⟨hu.trans ht, hsub.cons c, fun ρ => ?_, ?_, fun heq => hwait ?_⟩
          · simp only [if_true, hiff ρ, List.forall_mem_cons]
            have := hfits ρ
            simp only [Bool.true_eq_false, false_imp_iff, and_true] at this
            rw [this, and_assoc]
          · simp only [if_true]
            omega
          · simp only [if_true] at heq
            omega
      | false =>
          have htwo := hopen rfl
          have hpend : t.openPositions (c :: pending) =
              t.openTerms c + t.openPositions pending := rfl
          refine ⟨hu.trans ht, hsub.cons_cons c, fun ρ => ?_, ?_, fun heq => ?_⟩
          · simp only [Bool.false_eq_true, if_false, List.forall_mem_cons]
            have := hfits ρ
            simp only [true_imp_iff] at this
            rw [and_left_comm, hiff ρ, ← and_assoc, ← and_assoc, and_comm (a := c.Holds ρ), this]
          · simp only [Bool.false_eq_true, if_false]
            omega
          · simp only [Bool.false_eq_true, if_false] at heq ⊢
            exact List.forall_mem_cons.mpr ⟨by omega, hwait (by omega)⟩

theorem settleAll_spec (hs : s.Coherent I) {cs : List Difference}
    (hcs : ∀ c ∈ cs, s.ScopedDifference I c) : SettlesAll I s cs (s.settleAll cs) := by
  induction cs generalizing s with
  | nil => exact ⟨.refl, .slnil, fun ρ => Iff.rfl, Nat.le_refl _, fun _ c hc => nomatch hc⟩
  | cons c rest ih =>
      obtain ⟨hc, hrest⟩ := List.forall_mem_cons.mp hcs
      have hsettle := settle_spec hs hc
      simp only [settleAll]
      cases hr : s.settle c with
      | error f =>
          rw [hr] at hsettle
          exact ⟨hsettle.1, fun ρ hρ hall => hsettle.2 ρ hρ (hall c (List.mem_cons_self ..))⟩
      | ok result =>
          rw [hr] at hsettle
          obtain ⟨u, done⟩ := result
          have hu := hsettle.1
          exact SettlesAll.cons hsettle (ih (hu.coherent hs) fun c' hc' => (hrest c' hc').steps hu)

/-! ## Propagation -/

theorem rankOfTerm_positions (s : State) (t : Term) :
    (s.rankOfTerm t).positions = (s.walk t).isVar.toNat := by
  unfold rankOfTerm
  cases s.walk t with
  | val v => rfl
  | var x =>
      dsimp only
      split <;> rfl

theorem rankOfDifference_positions (s : State) (c : Difference) :
    (s.rankOfDifference c).positions = s.openTerms c := by
  show (s.rankOfTerm c.minuend).positions +
    ((s.rankOfTerm c.subtrahend).positions + (s.rankOfTerm c.distance).positions) = _
  rw [rankOfTerm_positions, rankOfTerm_positions, rankOfTerm_positions, openTerms_eq, Nat.add_assoc]

/-- The first count of the rank is the number of open terms of suspended differences. -/
theorem rank_positions (s : State) : s.rank.positions = s.openPositions s.differences := by
  unfold rank openPositions
  generalize s.differences = cs
  induction cs with
  | nil => rfl
  | cons c rest ih =>
      rw [List.foldr_cons, List.foldr_cons, ← ih, ← rankOfDifference_positions]
      rfl

/-- The outcome takes in exactly the assignments with a property: the new state is well
formed, settled and has those solutions, and a failure means that there are none. -/
def Takes (I : Int → Prop) (s : State) (P : Assignment → Prop) : Except Failure State → Prop
  | .ok t => t.WellFormed I ∧ Advances I s t ∧ t.Settled ∧ ∀ ρ, t.Solution ρ ↔ s.Solution ρ ∧ P ρ
  | .error f => f.Blocked (Derived I) ∧ ∀ ρ, s.Solution ρ → ¬ P ρ

/-- What is taken in after nothing has changed the solutions is taken in. -/
theorem Takes.of_advances {t : State} {P Q : Assignment → Prop} {r : Except Failure State}
    (h : Advances I s t) (hst : ∀ ρ, t.Solution ρ ↔ s.Solution ρ ∧ P ρ) (hr : Takes I t Q r) :
    Takes I s (fun ρ => P ρ ∧ Q ρ) r := by
  cases r with
  | error f => exact ⟨hr.1, fun ρ hρ hPQ => hr.2 ρ ((hst ρ).mpr ⟨hρ, hPQ.1⟩) hPQ.2⟩
  | ok u =>
      obtain ⟨hwf, hadv, hset, hiff⟩ := hr
      exact ⟨hwf, h.trans hadv, hset, fun ρ => by rw [hiff ρ, hst ρ, and_assoc]⟩

theorem Takes.congr {P Q : Assignment → Prop} {r : Except Failure State} (h : Takes I s P r)
    (hPQ : ∀ ρ, s.Solution ρ → (P ρ ↔ Q ρ)) : Takes I s Q r := by
  cases r with
  | error f => exact ⟨h.1, fun ρ hρ hQ => h.2 ρ hρ ((hPQ ρ hρ).mpr hQ)⟩
  | ok u =>
      obtain ⟨hwf, hadv, hset, hiff⟩ := h
      exact ⟨hwf, hadv, hset, fun ρ => (hiff ρ).trans (and_congr_right (hPQ ρ))⟩

/-- Differences of which no term is known wait. -/
theorem settleAll_of_open {cs : List Difference}
    (h : ∀ c ∈ cs, ∀ t ∈ c.terms, (s.walk t).isVar = true) : s.settleAll cs = .ok (s, cs) := by
  induction cs with
  | nil => rfl
  | cons c rest ih =>
      obtain ⟨hc, hrest⟩ := List.forall_mem_cons.mp h
      obtain ⟨ha, hb, hd⟩ := Difference.forall_terms.mp hc
      have hsettle : s.settle c = .ok (s, false) := by
        unfold settle
        cases hwa : s.walk c.minuend with
        | val v =>
            rw [hwa] at ha
            cases ha
        | var x =>
            cases hwb : s.walk c.subtrahend with
            | val v =>
                rw [hwb] at hb
                cases hb
            | var y =>
                cases hwd : s.walk c.distance with
                | val v =>
                    rw [hwd] at hd
                    cases hd
                | var z => rfl
      simp only [settleAll, hsettle]
      show (s.settleAll rest >>= _) = _
      rw [ih hrest]
      rfl

/-- While no term of a difference is known, there is nothing to propagate. -/
theorem propagate_of_open (h : ∀ c ∈ s.differences, ∀ t ∈ c.terms, (s.walk t).isVar = true) :
    s.propagate = .ok s := by
  have hpass : s.pass = .ok s := by
    rw [pass, settleAll_of_open h]
    rfl
  rw [propagate, hpass]
  refine if_neg fun hbelow => ?_
  simp only [Rank.Below, Nat.lt_irrefl, and_false, or_false] at hbelow

theorem propagate_takes (hs : s.WellFormed I) : Takes I s (fun _ => True) s.propagate := by
  induction s using propagate.induct with
  | case1 s ih =>
      have hpass := settleAll_spec hs.coherent hs.differences
      rw [propagate]
      cases hr : s.settleAll s.differences with
      | error f =>
          rw [hr] at hpass
          simp only [pass, hr]
          exact ⟨hpass.1, fun ρ hρ _ => hpass.2 ρ hρ.fits hρ.differences⟩
      | ok result =>
          rw [hr] at hpass
          obtain ⟨t, pending⟩ := result
          have hnext : s.pass = .ok { t with differences := pending } := by
            simp only [pass, hr]
            rfl
          obtain ⟨ht, hsub, hiff, hle, hwait⟩ := hpass
          have hwf : WellFormed I { t with differences := pending } := by
            refine ⟨(ht.coherent hs.coherent).withDifferences pending, fun c hc u hu => ?_⟩
            exact ((hs.differences c (hsub.subset hc) u hu).steps ht).withDifferences pending
          have hadv : Advances I s { t with differences := pending } :=
            ht.withDifferences s.differences
          have hsol : ∀ ρ, Solution { t with differences := pending } ρ ↔ s.Solution ρ ∧ True := by
            intro ρ
            rw [and_true, solution_iff, solution_iff, fits_withDifferences]
            exact hiff ρ
          rw [hnext]
          show Takes I s _ (if _ : _ then _ else _)
          split
          next hbelow =>
            exact ((ih _ hbelow hwf).of_advances hadv hsol).congr fun ρ _ => and_self_iff
          next hstill =>
            refine ⟨hwf, hadv, ?_, hsol⟩
            -- The pass has grounded no term, or the rank would be lower.
            refine hwait ?_
            have hrank : ¬ State.openPositions t pending < s.openPositions s.differences := by
              intro hlt
              refine hstill (.inl ?_)
              rw [rank_positions, rank_positions]
              exact hlt
            omega

end State

/-! ## Constraints -/

/-- A constraint that a state can be asked to take in. -/
inductive Constraint where
  | equal (a b : Term)
  /-- A term is among what a restriction allows. -/
  | restricted (t : Term) (allowed : Allowed)
  /-- The first term less the second one is the third. -/
  | apart (a b d : Term)

namespace Constraint

/-- The operation that takes the constraint in. -/
def post (c : Constraint) (s : State) : Except Failure State :=
  match c with
  | .equal a b => s.bind a b
  | .restricted t allowed => s.restrict t allowed
  | .apart a b d => s.assertDifference a b d

/-- What the operation does before it propagates. -/
def enter (c : Constraint) (s : State) : Except Failure State :=
  match c with
  | .equal a b => s.equate a b
  | .restricted t allowed => s.narrow t allowed
  | .apart a b d => .ok { s with differences := s.differences ++ [⟨a, b, d⟩] }

theorem post_eq (c : Constraint) (s : State) : c.post s = c.enter s >>= State.propagate := by
  cases c with
  | equal a b => rfl
  | restricted t allowed => rfl
  | apart a b d => rfl

/-- The differences that the constraint adds to the suspended ones. -/
def posted : Constraint → List Difference
  | .apart a b d => [⟨a, b, d⟩]
  | _ => []

/-- The terms of a constraint. -/
def terms : Constraint → List Term
  | .equal a b => [a, b]
  | .restricted t _ => [t]
  | .apart a b d => [a, b, d]

/-- What the constraint asks of an assignment.  A test asks for a pitch of the space as well,
if its term is open and has no domain in the state. -/
def Asks (c : Constraint) (s : State) (ρ : Assignment) : Prop :=
  match c with
  | .equal a b => a.eval ρ = b.eval ρ
  | .restricted t allowed => s.Restricts t allowed ρ
  | .apart a b d => a.eval ρ - b.eval ρ = d.eval ρ

/-- The terms and the restriction of the constraint are over integers of a set.  The open
terms of an equation and of a difference have domains in the state, unless the set is closed. -/
def Scoped (I : Int → Prop) (s : State) : Constraint → Prop
  | .equal a b => s.Scoped I a ∧ s.Scoped I b
  | .restricted t allowed => t.Over I ∧ s.Supplies I allowed
  | .apart a b d => s.Scoped I a ∧ s.Scoped I b ∧ s.Scoped I d

/-- The terms and the restriction of the constraint are over integers. -/
def Integral : Constraint → Prop
  | .equal a b => a.Over (fun _ => True) ∧ b.Over fun _ => True
  | .restricted t allowed => t.Over (fun _ => True) ∧ allowed.Over fun _ => True
  | .apart a b d => a.Over (fun _ => True) ∧ b.Over (fun _ => True) ∧ d.Over fun _ => True

theorem Integral.scoped {c : Constraint} (hc : c.Integral) (s : State) :
    c.Scoped (fun _ => True) s := by
  have hterm : ∀ {t : Term}, t.Over (fun _ => True) → s.Scoped (fun _ => True) t :=
    fun h => ⟨h, .inl closed_true⟩
  cases c with
  | equal a b => exact ⟨hterm hc.1, hterm hc.2⟩
  | restricted t allowed => exact ⟨hc.1, hc.2, fun _ _ _ => trivial⟩
  | apart a b d => exact ⟨hterm hc.1, hterm hc.2.1, hterm hc.2.2⟩

end Constraint

namespace State

variable {I : Int → Prop} {s : State}

theorem WellFormed.steps {t : State} (hs : s.WellFormed I) (h : Steps I s t) : t.WellFormed I :=
  ⟨h.coherent hs.coherent, fun c hc u hu => by
    rw [h.differences] at hc
    exact (hs.differences c hc u hu).steps h⟩

theorem wellFormed_empty (I : Int → Prop) (space : PitchSpace) : (empty space).WellFormed I :=
  ⟨coherent_empty I space, fun _ hc => nomatch hc⟩

/-- A scoped difference can be suspended. -/
theorem WellFormed.suspend (hs : s.WellFormed I) {c : Difference} (hc : s.ScopedDifference I c) :
    WellFormed I { s with differences := s.differences ++ [c] } := by
  refine ⟨hs.coherent.withDifferences _, fun c' hc' u hu => State.Scoped.withDifferences ?_ _⟩
  rcases List.mem_append.mp hc' with hc' | hc'
  · exact hs.differences c' hc' u hu
  · rcases List.mem_singleton.mp hc' with rfl
    exact hc u hu

theorem scopedDifference_mk {a b d : Term} (ha : s.Scoped I a) (hb : s.Scoped I b)
    (hd : s.Scoped I d) : s.ScopedDifference I ⟨a, b, d⟩ :=
  Difference.forall_terms.mpr ⟨ha, hb, hd⟩

/-- What entering a constraint gives.  A difference is only suspended, and asks for nothing
yet. -/
def Enters (I : Int → Prop) (s : State) (c : Constraint) : Except Failure State → Prop
  | .ok t => t.WellFormed I ∧ Advances I s t ∧ t.differences = s.differences ++ c.posted ∧
      ∀ ρ, t.Fits ρ ↔ s.Fits ρ ∧ (c.posted = [] → c.Asks s ρ)
  | .error f => f.Blocked (Derived I) ∧ ∀ ρ, s.Fits ρ → ¬ c.Asks s ρ

theorem Yields.enters {c : Constraint} {r : Except Failure State} (hs : s.WellFormed I)
    (h : Yields I s (c.Asks s) r) (hposted : c.posted = []) : Enters I s c r := by
  cases r with
  | error f => exact h
  | ok t =>
      obtain ⟨ht, hfits⟩ := h
      refine ⟨hs.steps ht, ht.withDifferences s.differences, ?_, fun ρ => ?_⟩
      · rw [hposted, List.append_nil, ht.differences]
      · rw [hfits ρ, imp_iff_right hposted]

/-- An equation between terms over the set can be entered, whether they have domains or not. -/
theorem equate_enters (hs : s.WellFormed I) {a b : Term} (ha : a.Over I) (hb : b.Over I) :
    Enters I s (.equal a b) (s.equate a b) := by
  have hyields := equate_yields hs.coherent (ha.mono fun _ => .same) (hb.mono fun _ => .same)
    (.inl hb) (.inl ha)
  exact Yields.enters (c := .equal a b) hs hyields rfl

theorem enter_spec (hs : s.WellFormed I) {c : Constraint} (hc : c.Scoped I s) :
    Enters I s c (c.enter s) := by
  have hsame : ∀ n, I n → Derived I n := fun _ => .same
  cases c with
  | equal a b => exact equate_enters hs hc.1.isOver hc.2.isOver
  | restricted t allowed =>
      obtain ⟨ht, hsupplies⟩ := hc
      have hyields := narrow_yields hs.coherent ht (hsupplies.1.mono hsame) (.inl hsupplies)
      exact Yields.enters (c := .restricted t allowed) hs hyields rfl
  | apart a b d =>
      obtain ⟨ha, hb, hd⟩ := hc
      refine ⟨hs.suspend (scopedDifference_mk ha hb hd), .refl, rfl, fun ρ => ?_⟩
      rw [fits_withDifferences]
      exact ⟨fun hρ => ⟨hρ, nofun⟩, And.left⟩

/-- What a constraint asks for is asked for when it is entered or by the difference that it
adds. -/
theorem asks_iff_entered {c : Constraint} {ρ : Assignment} :
    (c.posted = [] → c.Asks s ρ) ∧ (∀ e ∈ c.posted, e.Holds ρ) ↔ c.Asks s ρ := by
  cases c with
  | equal a b => simp [Constraint.posted]
  | restricted t allowed => simp [Constraint.posted]
  | apart a b d => simp [Constraint.posted, Constraint.Asks, Difference.Holds]

/-- A constraint that is entered is taken in by propagation. -/
theorem Enters.takes {c : Constraint} (henters : Enters I s c (c.enter s)) :
    Takes I s (c.Asks s) (c.post s) := by
  rw [Constraint.post_eq]
  cases hr : c.enter s with
  | error f =>
      rw [hr] at henters
      exact ⟨henters.1, fun ρ hρ => henters.2 ρ hρ.fits⟩
  | ok t =>
      rw [hr] at henters
      obtain ⟨hwf, hadv, hposted, hfits⟩ := henters
      have hsol : ∀ ρ, t.Solution ρ ↔ s.Solution ρ ∧ c.Asks s ρ := by
        intro ρ
        rw [solution_iff, solution_iff, hfits ρ, hposted, List.forall_mem_append,
          and_and_and_comm, asks_iff_entered]
      exact ((propagate_takes hwf).of_advances hadv hsol).congr fun ρ _ =>
        ⟨And.left, fun hP => ⟨hP, trivial⟩⟩

/-- An operation takes in its constraint and nothing else. -/
theorem post_takes (hs : s.WellFormed I) {c : Constraint} (hc : c.Scoped I s) :
    Takes I s (c.Asks s) (c.post s) :=
  (enter_spec hs hc).takes

end State

/-! ## Reachable states -/

/-- The states that operations over integers reach from the empty one. -/
inductive Reachable (space : PitchSpace) : State → Prop where
  | empty : Reachable space (.empty space)
  | post {s t : State} {c : Constraint} (earlier : Reachable space s) (integral : c.Integral)
      (taken : c.post s = .ok t) : Reachable space t

/-- Posts constraints one after the other. -/
def State.postAll (s : State) : List Constraint → Except Failure State
  | [] => .ok s
  | c :: rest => do (← c.post s).postAll rest

theorem Reachable.wellFormed {space : PitchSpace} {s : State} (hs : Reachable space s) :
    s.WellFormed fun _ => True := by
  induction hs with
  | empty => exact State.wellFormed_empty _ space
  | post earlier integral taken ih =>
      have htakes := State.post_takes ih (integral.scoped _)
      rw [taken] at htakes
      exact htakes.1

end Consonance
