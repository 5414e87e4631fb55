import Consonance.Proofs.Isolation
import Consonance.Proofs.Rounds

/-!
# The order of posting

Constraints that make no two variables equal can be posted in any order.  Either every order
comes to a dead end, or every order ends with the same values and the same domains.  This is
so if the integers that arise can be written, since a dead end shows some of them.

*Boxes.*  In such a run variables are bound to integers only, and open ones have no domain or
several values (`State.Plain`).  So the assignments that fit a state are a box: each variable
ranges over what the state lets it be, whatever the others are.  Two boxes are compared by
their assignments, and what the larger one knows is known in the smaller one
(`Covers.known`).

*Stable boxes.*  The box of a final state is stable.  It meets the restrictions and the
equations that were posted, and each difference of which a term is known supports all of it
(`State.Stable`).  For the differences that still wait this is what the last pass of
propagation has found.  The others were met when they were dropped.

*Covering.*  A state that covers a stable box goes on covering it while stable constraints are
posted, and none of the posts fails (`Covers.postAll`).  Settling is exact, and a larger box
knows fewer terms and supports more.  So a run in another order ends with a box that is not
smaller, and by symmetry with the same one.
-/

namespace Consonance

namespace State

variable {I : Int → Prop} {s t u : State}

/-! ## Plain states -/

/-- Variables are bound to values only, and no open variable has a domain of one value. -/
structure Plain (s : State) : Prop where
  values : ∀ b ∈ s.substitution, b.2.isVar = false
  several : ∀ x, ¬ s.Lone x

theorem plain_empty (space : PitchSpace) : (empty space).Plain where
  values _ hb := nomatch hb
  several := fun _ ⟨_, _, hd, _⟩ => nomatch hd

theorem Plain.withDifferences (h : s.Plain) (cs : List Difference) :
    Plain { s with differences := cs } :=
  ⟨h.values, fun x hx => h.several x ⟨hx.isOpen, hx.single⟩⟩

/-- A variable is open itself or known. -/
theorem walk_var_of_values {σ : Substitution} (hσ : ∀ b ∈ σ, b.2.isVar = false) {x y : Var}
    (hw : σ.walk (.var x) = .var y) : y = x := by
  induction σ with
  | nil => exact (Term.var.inj hw).symm
  | cons b earlier ih =>
      obtain ⟨z, a⟩ := b
      obtain ⟨ha, hearlier⟩ := List.forall_mem_cons.mp hσ
      by_cases hz : Substitution.walk earlier (.var x) = .var z
      · rw [Substitution.walk_cons_self a hz] at hw
        rw [hw] at ha
        cases ha
      · exact ih hearlier ((Substitution.walk_cons_ne a hz).symm.trans hw)

theorem Learns.plain {x : Var} (h : Learns s x t) (hs : s.Plain) : t.Plain := by
  refine ⟨?_, fun y hy => hs.several y (h.lone hy)⟩
  cases h with
  | value => exact List.forall_mem_cons.mpr ⟨rfl, hs.values⟩
  | only => exact List.forall_mem_cons.mpr ⟨rfl, hs.values⟩
  | several => exact hs.values

theorem Progress.plain {terms : List Term} (h : Progress terms s t) (hs : s.Plain) : t.Plain := by
  induction h with
  | refl => exact hs
  | tail _ learnt ih =>
      obtain ⟨_, -, x, -, hlearns⟩ := learnt
      exact hlearns.plain ih

theorem propagate_plain (hs : s.WellFormed I) (h : s.propagate = .ok t) (hplain : s.Plain) :
    t.Plain := by
  refine propagate_keeps hs h (fun w u pending hw hr hP => ?_) hplain
  exact ((settleAll_progress hw.coherent hw.differences hr).plain hP).withDifferences pending

/-! ## Boxes -/

/-- The assignments that fit the second state fit the first one. -/
def Covers (s t : State) : Prop := ∀ ρ, t.Fits ρ → s.Fits ρ

theorem Covers.lets (hcov : s.Covers t) (hs : s.Coherent I) (ht : t.Coherent I)
    {a : Term} (ha : a.Over I) {n : Int} (h : t.Lets a n) : s.Lets a n := by
  obtain ⟨ρ, hρ, rfl⟩ := (ht.lets_iff ha).mp h
  exact (hcov ρ hρ).lets hs ha

/-- What is known in a state is known in the plain states that it covers. -/
theorem Covers.known (hcov : s.Covers t) (hs : s.Coherent I) (ht : t.Coherent I) (hplain : t.Plain)
    {a : Term} (ha : a.Over I) (h : (s.walk a).isVar = false) : (t.walk a).isVar = false := by
  cases hw : t.walk a with
  | val v => rfl
  | var y =>
      cases hv : s.walk a with
      | var x =>
          rw [hv] at h
          cases h
      | val v =>
          obtain ⟨m, rfl, -⟩ := hs.walk_int (fun _ h => h) ha hv
          have honly : ∀ n, t.Lets a n → n = m := fun n hn =>
            (lets_of_int hv).mp (hcov.lets hs ht ha hn)
          -- An open variable without a domain, or with several values, could be something else.
          cases hd : t.stored? y with
          | none =>
              have := honly (m + 1) ((lets_of_var hw).mpr fun d hd' => nomatch hd.symm.trans hd')
              omega
          | some d =>
              have hint := (ht.domains y d hd).integral
              have hpos := Domain.one_le_size (ht.occupied y d hd)
              have hne : d.size ≠ 1 := fun hone =>
                hplain.several y ⟨ht.walk_var hw, d, hd, hone⟩
              obtain ⟨n, hn, hnm⟩ := hint.exists_ne (by omega) m
              refine absurd (honly n ((lets_of_var hw).mpr fun e he => ?_)) hnm
              cases hd.symm.trans he
              exact hn

/-! ## Covering a stable box -/

/-- A difference of which a term is known supports what fits the state. -/
def Stable (t : State) (c : Difference) : Prop := ∀ ρ, t.Fits ρ → t.Knows c → t.Supports c ρ

theorem Covers.supports (hcov : s.Covers t) (hs : s.Coherent I) (ht : t.Coherent I)
    (hplain : t.Plain) {c : Difference} (hc : ∀ a ∈ c.terms, a.Over I) (hstable : t.Stable c)
    {ρ : Assignment} (hρ : t.Fits ρ) (hknows : s.Knows c) : s.Supports c ρ := by
  obtain ⟨a, ha, hknown⟩ := hknows
  have hlets : ∀ b ∈ c.terms, ∀ n, t.Lets b n → s.Lets b n := fun b hb n =>
    hcov.lets hs ht (hc b hb)
  obtain ⟨hm, hn, hk⟩ := Difference.forall_terms.mp hlets
  obtain ⟨⟨n, k, hn₁, hk₁, h₁⟩, ⟨m, k', hm₂, hk₂, h₂⟩, ⟨m', n', hm₃, hn₃, h₃⟩⟩ :=
    hstable ρ hρ ⟨a, ha, hcov.known hs ht hplain (hc a ha) hknown⟩
  exact ⟨⟨n, k, hn n hn₁, hk k hk₁, h₁⟩, ⟨m, k', hm m hm₂, hk k' hk₂, h₂⟩,
    ⟨m', n', hm m' hm₃, hn n' hn₃, h₃⟩⟩

theorem Covers.settle (hcov : s.Covers t) (hs : s.Coherent I) (ht : t.Coherent I)
    (hplain : t.Plain) {c : Difference} (hc : s.ScopedDifference I c) (hstable : t.Stable c) :
    ∃ u done, s.settle c = .ok (u, done) ∧ u.Covers t := by
  have hexact := settle_exact hs hc
  have hsupports : ∀ ρ, t.Fits ρ → s.Knows c → s.Supports c ρ := fun ρ hρ =>
    hcov.supports hs ht hplain (fun a ha => (hc a ha).isOver) hstable hρ
  cases hr : s.settle c with
  | error f =>
      rw [hr] at hexact
      obtain ⟨ρ, hρ⟩ := ht.exists_fits
      exact absurd (hsupports ρ hρ) (hexact.2 ρ (hcov ρ hρ))
  | ok result =>
      rw [hr] at hexact
      obtain ⟨u, done⟩ := result
      exact ⟨u, done, rfl, fun ρ hρ => (hexact.2.1 ρ).mpr ⟨hcov ρ hρ, hsupports ρ hρ⟩⟩

theorem Covers.settleAll (hcov : s.Covers t) (hs : s.Coherent I) (ht : t.Coherent I)
    (hplain : t.Plain) {cs : List Difference} (hcs : ∀ c ∈ cs, s.ScopedDifference I c)
    (hstable : ∀ c ∈ cs, t.Stable c) :
    ∃ u pending, s.settleAll cs = .ok (u, pending) ∧ u.Covers t := by
  induction cs generalizing s with
  | nil => exact ⟨s, [], rfl, hcov⟩
  | cons c rest ih =>
      obtain ⟨hc, hrest⟩ := List.forall_mem_cons.mp hcs
      obtain ⟨hcstable, hothers⟩ := List.forall_mem_cons.mp hstable
      obtain ⟨u, done, hu, hucov⟩ := hcov.settle hs ht hplain hc hcstable
      have hsettles := settle_spec hs hc
      rw [hu] at hsettles
      have hsteps := hsettles.1
      obtain ⟨w, pending, hw, hwcov⟩ := ih hucov (hsteps.coherent hs)
        (fun c' hc' => (hrest c' hc').steps hsteps) hothers
      refine ⟨w, if done then pending else c :: pending, ?_, hwcov⟩
      exact bind_eq_ok.mpr ⟨(u, done), hu, bind_eq_ok.mpr ⟨(w, pending), hw, rfl⟩⟩

theorem Covers.propagate (hcov : s.Covers t) (hs : s.WellFormed I) (ht : t.Coherent I)
    (hplain : t.Plain) (hstable : ∀ c ∈ s.differences, t.Stable c) :
    ∃ u, s.propagate = .ok u ∧ u.Covers t := by
  induction s using propagate.induct with
  | case1 s ih =>
      obtain ⟨u, pending, hu, hucov⟩ :=
        hcov.settleAll hs.coherent ht hplain hs.differences hstable
      let next : State := { u with differences := pending }
      have hnext : s.pass = .ok next := bind_eq_ok.mpr ⟨(u, pending), hu, rfl⟩
      have hcovers : next.Covers t := fun ρ hρ => (fits_withDifferences pending).mpr (hucov ρ hρ)
      have hloop : s.propagate =
          if _ : next.rank.Below s.rank then next.propagate else .ok next := by
        rw [State.propagate, hnext]
        rfl
      rw [hloop]
      split
      next hbelow =>
        exact ih next hbelow hcovers (hs.pass hu) fun c hc =>
          hstable c ((settleAll_sublist hu).subset hc)
      next => exact ⟨next, rfl, hcovers⟩

end State

/-! ## Separate constraints -/

namespace Constraint

/-- The constraint is over integers, makes no two variables equal and tests nothing. -/
def Separate : Constraint → Prop
  | .equal a b => (a.Over (fun _ => True) ∧ b.Over fun _ => True) ∧
      (a.isVar = false ∨ b.isVar = false)
  | .restricted t allowed => (t.Over (fun _ => True) ∧ allowed.Over fun _ => True) ∧
      ¬ allowed.IsTest
  | .apart a b d => a.Over (fun _ => True) ∧ b.Over (fun _ => True) ∧ d.Over fun _ => True

theorem Separate.integral {c : Constraint} (h : c.Separate) : c.Integral := by
  cases c with
  | equal a b => exact h.1
  | restricted t allowed => exact h.1
  | apart a b d => exact h

theorem Separate.asks_iff {c : Constraint} (h : c.Separate) (s : State) (ρ : Assignment) :
    c.Asks s ρ ↔ c.Holds ρ := by
  cases c with
  | equal a b => exact Iff.rfl
  | restricted t allowed => exact ⟨And.left, fun ha => ⟨ha, fun htest => absurd htest h.2⟩⟩
  | apart a b d => exact Iff.rfl

/-- The box of a state is stable under the constraint. -/
def StableIn (c : Constraint) (t : State) : Prop :=
  match c with
  | .apart a b d => t.Stable ⟨a, b, d⟩
  | c => ∀ ρ, t.Fits ρ → c.Holds ρ

/-- The state has taken the constraint in: all that fits it meets the constraint, or the
constraint is a difference that waits. -/
def TakenIn (c : Constraint) (t : State) : Prop :=
  (∀ ρ, t.Fits ρ → c.Holds ρ) ∨
    ∃ e ∈ t.differences, c = .apart e.minuend e.subtrahend e.distance

end Constraint

namespace State

variable {I : Int → Prop} {s t u : State}

/-! ## Covering along a run -/

theorem Covers.post (hcov : s.Covers t) (hs : s.WellFormed fun _ => True)
    (ht : t.Coherent fun _ => True) (hplain : t.Plain) (hwait : ∀ e ∈ s.differences, t.Stable e)
    {c : Constraint} (hc : c.Separate) (hstable : c.StableIn t) :
    ∃ u, c.post s = .ok u ∧ u.Covers t ∧ ∀ e ∈ u.differences, t.Stable e := by
  have hscoped := hc.integral.scoped s
  have henters := enter_spec hs hscoped
  obtain ⟨ρ₀, hρ₀⟩ := ht.exists_fits
  have hposted : ∀ e ∈ c.posted, t.Stable e := by
    intro e he
    cases c with
    | equal a b => cases he
    | restricted a allowed => cases he
    | apart a b d =>
        cases List.mem_singleton.mp he
        exact hstable
  have hasks : c.posted = [] → ∀ ρ, t.Fits ρ → c.Asks s ρ := by
    intro hnone ρ hρ
    refine (hc.asks_iff s ρ).mpr ?_
    cases c with
    | equal a b => exact hstable ρ hρ
    | restricted a allowed => exact hstable ρ hρ
    | apart a b d => cases hnone
  cases hr : c.enter s with
  | error f =>
      rw [hr] at henters
      have hnone : c.posted = [] := by
        cases c with
        | equal a b => rfl
        | restricted a allowed => rfl
        | apart a b d => cases hr
      exact absurd (hasks hnone ρ₀ hρ₀) (henters.2 ρ₀ (hcov ρ₀ hρ₀))
  | ok w =>
      rw [hr] at henters
      obtain ⟨hwf, -, hdifferences, hfits⟩ := henters
      have hwcov : w.Covers t := fun ρ hρ =>
        (hfits ρ).mpr ⟨hcov ρ hρ, fun hnone => hasks hnone ρ hρ⟩
      have hwstable : ∀ e ∈ w.differences, t.Stable e := by
        rw [hdifferences]
        exact List.forall_mem_append.mpr ⟨hwait, hposted⟩
      obtain ⟨u, hu, hucov⟩ := hwcov.propagate hwf ht hplain hwstable
      refine ⟨u, ?_, hucov, fun e he => hwstable e ((propagate_sublist hu).subset he)⟩
      rw [c.post_eq, hr]
      exact hu

/-- A run of constraints under which a box is stable goes through and covers the box. -/
theorem Covers.postAll (hcov : s.Covers t) (hs : s.WellFormed fun _ => True)
    (ht : t.Coherent fun _ => True) (hplain : t.Plain) (hwait : ∀ e ∈ s.differences, t.Stable e)
    {cs : List Constraint} (hcs : ∀ c ∈ cs, c.Separate) (hstable : ∀ c ∈ cs, c.StableIn t) :
    ∃ u, s.postAll cs = .ok u ∧ u.Covers t := by
  induction cs generalizing s with
  | nil => exact ⟨s, rfl, hcov⟩
  | cons c rest ih =>
      obtain ⟨hc, hrest⟩ := List.forall_mem_cons.mp hcs
      obtain ⟨hcstable, hothers⟩ := List.forall_mem_cons.mp hstable
      obtain ⟨u, hu, hucov, huwait⟩ := hcov.post hs ht hplain hwait hc hcstable
      have htakes := post_takes hs (hc.integral.scoped s)
      rw [hu] at htakes
      obtain ⟨w, hw, hwcov⟩ := ih hucov htakes.1 huwait hrest hothers
      exact ⟨w, bind_eq_ok.mpr ⟨u, hu, hw⟩, hwcov⟩

/-! ## The box at the end of a run -/

/-- A difference that is dropped is met by all that fits. -/
theorem settleAll_meets (hs : s.Coherent I) {cs : List Difference}
    (hcs : ∀ c ∈ cs, s.ScopedDifference I c) {pending : List Difference}
    (h : s.settleAll cs = .ok (t, pending)) :
    ∀ e ∈ cs, e ∈ pending ∨ ∀ ρ, t.Fits ρ → e.Holds ρ := by
  induction cs generalizing s pending with
  | nil => exact fun e he => nomatch he
  | cons c rest ih =>
      obtain ⟨hc, hrest⟩ := List.forall_mem_cons.mp hcs
      obtain ⟨⟨u, done⟩, hu, h⟩ := bind_eq_ok.mp h
      obtain ⟨⟨w, waiting⟩, hw, h⟩ := bind_eq_ok.mp h
      cases h
      have hsettles := settle_spec hs hc
      rw [hu] at hsettles
      obtain ⟨hsteps, hfits, -⟩ := hsettles
      have hothers := (hsteps.coherent hs)
      have hscoped : ∀ c' ∈ rest, u.ScopedDifference I c' :=
        fun c' hc' => (hrest c' hc').steps hsteps
      have hmeets := ih hothers hscoped hw
      have hall := settleAll_spec hothers hscoped
      rw [hw] at hall
      cases done with
      | false =>
          refine List.forall_mem_cons.mpr ⟨.inl (List.mem_cons_self ..), fun e he => ?_⟩
          exact (hmeets e he).imp (List.mem_cons_of_mem c) id
      | true =>
          refine List.forall_mem_cons.mpr ⟨.inr fun ρ hρ => ?_, hmeets⟩
          exact ((hfits ρ).mp ⟨hall.1.fits hρ, nofun⟩).2

theorem propagate_meets (hs : s.WellFormed I) (h : s.propagate = .ok t) {e : Difference}
    (he : e ∈ s.differences) : e ∈ t.differences ∨ ∀ ρ, t.Fits ρ → e.Holds ρ := by
  refine propagate_keeps (P := fun w => e ∈ w.differences ∨ ∀ ρ, w.Fits ρ → e.Holds ρ) hs h ?_
    (.inl he)
  intro w u pending hw hr hmet
  rcases hmet with hwaits | hholds
  · refine (settleAll_meets hw.coherent hw.differences hr e hwaits).imp id fun hmeets ρ hρ => ?_
    exact hmeets ρ ((fits_withDifferences pending).mp hρ)
  · have hall := settleAll_spec hw.coherent hw.differences
    rw [hr] at hall
    exact .inr fun ρ hρ => hholds ρ (hall.1.fits ((fits_withDifferences pending).mp hρ))

theorem Stable.withDifferences {c : Difference} (h : s.Stable c) (cs : List Difference) :
    Stable { s with differences := cs } c := by
  intro ρ hρ hknows
  have hsupports := h ρ ((fits_withDifferences cs).mp hρ) hknows
  exact ⟨hsupports.minuend, hsupports.subtrahend, hsupports.distance⟩

/-- The box that propagation ends with is stable under the differences that wait. -/
theorem propagate_stable (hs : s.WellFormed I) (h : s.propagate = .ok t) :
    ∀ e ∈ t.differences, t.Stable e := by
  obtain ⟨u, hu, hall, ht⟩ := propagate_last hs h
  intro e he
  have heu := (settleAll_sublist hall).subset he
  obtain ⟨done, hsettle⟩ := settle_of_settleAll hu.coherent hu.differences hall e heu
  have hexact := settle_exact hu.coherent (hu.differences e heu)
  rw [hsettle] at hexact
  have hstable : u.Stable e := fun ρ hρ => ((hexact.2.1 ρ).mp hρ).2
  rw [ht]
  exact hstable.withDifferences t.differences

/-- What a state of a run with separate constraints is. -/
structure Calm (t : State) : Prop where
  wellFormed : t.WellFormed fun _ => True
  plain : t.Plain
  stable : ∀ e ∈ t.differences, t.Stable e

theorem calm_empty (space : PitchSpace) : (empty space).Calm :=
  ⟨wellFormed_empty _ space, plain_empty space, fun _ he => nomatch he⟩

theorem enter_plain (hs : s.WellFormed fun _ => True) (hplain : s.Plain) {c : Constraint}
    (hc : c.Separate) (h : c.enter s = .ok u) : u.Plain := by
  cases c with
  | equal a b =>
      obtain ⟨⟨ha, hb⟩, hknown⟩ := hc
      have hval : ∀ {p : Term}, p.isVar = false → (s.walk p).isVar = false := by
        intro p hp
        cases p with
        | var x => cases hp
        | val v => exact congrArg Term.isVar (Substitution.walk_val s.substitution v)
      rcases hknown with hknown | hknown
      · have hequate := equate_proceeds_left hs.coherent.elementary ha hb (hval hknown)
        exact (hequate.progress h).plain hplain
      · have hequate := equate_proceeds hs.coherent.elementary ha hb (hval hknown)
        exact (hequate.progress h).plain hplain
  | restricted a allowed =>
      have hnarrow := narrow_proceeds hs.coherent.elementary hc.1.1 ⟨hc.1.2, fun _ _ _ => trivial⟩
      exact (hnarrow.progress h).plain hplain
  | apart a b d =>
      cases h
      exact hplain.withDifferences _

/-- A post of a separate constraint takes it in, and keeps what was taken in before. -/
theorem Calm.post (hs : s.Calm) {c : Constraint} (hc : c.Separate) (h : c.post s = .ok t) :
    t.Calm ∧ c.TakenIn t ∧ ∀ c' : Constraint, c'.TakenIn s → c'.TakenIn t := by
  obtain ⟨u, hu, hprop⟩ := bind_eq_ok.mp ((c.post_eq s).symm.trans h)
  have henters := enter_spec hs.wellFormed (hc.integral.scoped s)
  rw [hu] at henters
  obtain ⟨hwf, -, hdifferences, hfits⟩ := henters
  have htakes := propagate_takes hwf
  rw [hprop] at htakes
  obtain ⟨htwf, hlater, -⟩ := htakes
  have hplain := propagate_plain hwf hprop (enter_plain hs.wellFormed hs.plain hc hu)
  -- A difference that waits in the state between waits at the end or is met there.
  have hwaits : ∀ {e : Difference} {c' : Constraint}, e ∈ u.differences →
      c' = .apart e.minuend e.subtrahend e.distance → c'.TakenIn t := by
    rintro e c' he rfl
    exact (propagate_meets hwf hprop he).symm.imp id fun hmem => ⟨e, hmem, rfl⟩
  refine ⟨⟨htwf, hplain, propagate_stable hwf hprop⟩, ?_, fun c' hc' => ?_⟩
  · cases c with
    | equal a b => exact .inl fun ρ hρ => ((hfits ρ).mp (hlater.fits hρ)).2 rfl
    | restricted a allowed =>
        refine .inl fun ρ hρ => (hc.asks_iff s ρ).mp ?_
        exact ((hfits ρ).mp (hlater.fits hρ)).2 rfl
    | apart a b d =>
        refine hwaits (e := ⟨a, b, d⟩) ?_ rfl
        simp [hdifferences, Constraint.posted]
  · rcases hc' with hholds | ⟨e, he, heq⟩
    · exact .inl fun ρ hρ => hholds ρ ((hfits ρ).mp (hlater.fits hρ)).1
    · exact hwaits (by simp [hdifferences, he]) heq

theorem Calm.postAll (hs : s.Calm) {cs : List Constraint} (hcs : ∀ c ∈ cs, c.Separate)
    (h : s.postAll cs = .ok t) :
    t.Calm ∧ (∀ c ∈ cs, c.TakenIn t) ∧ ∀ c' : Constraint, c'.TakenIn s → c'.TakenIn t := by
  induction cs generalizing s with
  | nil =>
      cases h
      exact ⟨hs, nofun, fun _ hc' => hc'⟩
  | cons c rest ih =>
      obtain ⟨hc, hrest⟩ := List.forall_mem_cons.mp hcs
      obtain ⟨u, hu, h⟩ := bind_eq_ok.mp h
      obtain ⟨hcalm, htaken, hkept⟩ := hs.post hc hu
      obtain ⟨hend, hothers, hlater⟩ := ih hcalm hrest h
      exact ⟨hend, List.forall_mem_cons.mpr ⟨hlater c htaken, hothers⟩,
        fun c' hc' => hlater c' (hkept c' hc')⟩

/-- The box of a calm state is stable under what it has taken in. -/
theorem Calm.stableIn (ht : t.Calm) {c : Constraint} (hc : c.Separate) (htaken : c.TakenIn t) :
    c.StableIn t := by
  cases c with
  | equal a b => exact htaken.elim id fun ⟨_, _, heq⟩ => nomatch heq
  | restricted a allowed => exact htaken.elim id fun ⟨_, _, heq⟩ => nomatch heq
  | apart a b d =>
      rcases htaken with hholds | ⟨e, he, heq⟩
      · obtain ⟨ha, hb, hd⟩ := hc.integral.scoped t
        exact fun ρ hρ _ =>
          hρ.supports ht.wellFormed.coherent (scopedDifference_mk ha hb hd) (hholds ρ hρ)
      · cases heq
        exact ht.stable e he

/-! ## Two orders -/

/-- The variable has the same value in both states, or it is open in both, with the same domain
or with none. -/
def Agree (s t : State) (x : Var) : Prop :=
  (∃ n : Int, s.walk (.var x) = .int n ∧ t.walk (.var x) = .int n) ∨
    s.walk (.var x) = .var x ∧ t.walk (.var x) = .var x ∧ s.stored? x = t.stored? x

/-- Calm states that cover each other agree on all variables. -/
theorem Calm.agree (hs : s.Calm) (ht : t.Calm) (hst : s.Covers t) (hts : t.Covers s) (x : Var) :
    s.Agree t x := by
  have hover : (Term.var x).Over fun _ => True := trivial
  have hsc := hs.wellFormed.coherent
  have htc := ht.wellFormed.coherent
  have hlets : ∀ n, s.Lets (.var x) n ↔ t.Lets (.var x) n := fun n =>
    ⟨hts.lets htc hsc hover, hst.lets hsc htc hover⟩
  cases hws : s.walk (.var x) with
  | val v =>
      obtain ⟨n, rfl, -⟩ := hsc.walk_int (fun _ h => h) hover hws
      have hknown := hst.known hsc htc ht.plain hover (by rw [hws]; rfl)
      cases hwt : t.walk (.var x) with
      | var y =>
          rw [hwt] at hknown
          cases hknown
      | val w =>
          obtain ⟨m, rfl, -⟩ := htc.walk_int (fun _ h => h) hover hwt
          have hmn := (lets_of_int hws).mp ((hlets m).mpr ((lets_of_int hwt).mpr rfl))
          exact .inl ⟨n, hws, by rw [hwt, hmn]⟩
  | var y =>
      cases walk_var_of_values hs.plain.values hws
      cases hwt : t.walk (.var x) with
      | val w =>
          have hknown := hts.known htc hsc hs.plain hover (by rw [hwt]; rfl)
          rw [hws] at hknown
          cases hknown
      | var y =>
          cases walk_var_of_values ht.plain.values hwt
          refine .inr ⟨hws, hwt, ?_⟩
          simp only [lets_of_var hws, lets_of_var hwt] at hlets
          cases hds : s.stored? x with
          | none =>
              cases hdt : t.stored? x with
              | none => rfl
              | some e =>
                  obtain ⟨n, hn⟩ := e.exists_not_mem
                  exact absurd ((hlets n).mp (by simp [hds]) e hdt) hn
          | some d =>
              cases hdt : t.stored? x with
              | none =>
                  obtain ⟨n, hn⟩ := d.exists_not_mem
                  exact absurd ((hlets n).mpr (by simp [hdt]) d hds) hn
              | some e =>
                  refine congrArg some ((hsc.domains x d hds).integral.ext
                    (htc.domains x e hdt).integral fun n => ?_)
                  simpa [hds, hdt] using hlets n

/-- Both runs come to a dead end, or both give states that agree on all variables. -/
inductive SameOutcome : Except Failure State → Except Failure State → Prop where
  | fail (cause cause' : DeadEnd) :
      SameOutcome (.error (.deadEnd cause)) (.error (.deadEnd cause'))
  | succeed {s t : State} (agree : ∀ x, s.Agree t x) : SameOutcome (.ok s) (.ok t)

/-- If one order goes through, so does another one, and its state covers that of the first. -/
theorem postAll_covers {space : PitchSpace} {cs ds : List Constraint}
    (hcs : ∀ c ∈ cs, c.Separate) (hperm : cs.Perm ds) (h : (empty space).postAll cs = .ok s) :
    ∃ t, (empty space).postAll ds = .ok t ∧ t.Covers s := by
  obtain ⟨hcalm, htaken, -⟩ := (calm_empty space).postAll hcs h
  have hcov : (empty space).Covers s := fun ρ _ =>
    ⟨Substitution.respects_nil ρ, fun _ _ hd => nomatch hd⟩
  refine hcov.postAll (wellFormed_empty _ space) hcalm.wellFormed.coherent hcalm.plain nofun ?_ ?_
  · exact fun c hc => hcs c (hperm.mem_iff.mpr hc)
  · intro c hc
    have hmem := hperm.mem_iff.mpr hc
    exact hcalm.stableIn (hcs c hmem) (htaken c hmem)

/-- The order in which separate constraints are posted makes no difference to what is learnt, if
the integers that arise can be written. -/
theorem postAll_perm {space : PitchSpace} {cs ds : List Constraint} (hcs : ∀ c ∈ cs, c.Separate)
    (hperm : cs.Perm ds)
    (hwritable : ∀ n, (empty space).ArisesAlong cs n ∨ (empty space).ArisesAlong ds n →
      Number.isWritable n = true) :
    SameOutcome ((empty space).postAll cs) ((empty space).postAll ds) := by
  have hds : ∀ c ∈ ds, c.Separate := fun c hc => hcs c (hperm.mem_iff.mpr hc)
  have hwf := wellFormed_empty (fun _ => True) space
  cases hr : (empty space).postAll cs with
  | ok s =>
      obtain ⟨t, ht, hts⟩ := postAll_covers hcs hperm hr
      obtain ⟨s', hs', hst⟩ := postAll_covers hds hperm.symm ht
      cases hr.symm.trans hs'
      rw [ht]
      exact .succeed (((calm_empty space).postAll hcs hr).1.agree
        ((calm_empty space).postAll hds ht).1 hst hts)
  | error f =>
      cases hr' : (empty space).postAll ds with
      | ok t =>
          obtain ⟨s, hs, -⟩ := postAll_covers hds hperm.symm hr'
          cases hr.symm.trans hs
      | error g =>
          have hf := postAll_blocked hwf (fun c hc => (hcs c hc).integral) hr
          have hg := postAll_blocked hwf (fun c hc => (hds c hc).integral) hr'
          obtain ⟨cause, rfl⟩ := hf.exists_deadEnd fun n hn => hwritable n (.inl hn)
          obtain ⟨cause', rfl⟩ := hg.exists_deadEnd fun n hn => hwritable n (.inr hn)
          exact .fail cause cause'

/-- A difference, a restriction and a binding, and the same in the opposite order. -/
theorem postAll_perm_reverse :
    let x := Var.named "x"
    let z := Var.named "z"
    let apart : Constraint := .apart (.var x) (.var (.named "y")) (.var (.named "d"))
    let within : Constraint := .restricted (.var x) (.domain (.interval 1 2))
    let bound : Constraint := .equal (.var z) (.int 5)
    (∃ s, (empty .midi).postAll [apart, within, bound] = .ok s ∧
      s.stored? x = some (.interval 1 2) ∧ s.walk (.var z) = .int 5) ∧
        (∀ n, (empty .midi).ArisesAlong [apart, within, bound] n ∨
          (empty .midi).ArisesAlong [bound, within, apart] n → Number.isWritable n = true) ∧
        SameOutcome ((empty .midi).postAll [apart, within, bound])
          ((empty .midi).postAll [bound, within, apart]) := by
  intro x z apart within bound
  let c : Difference := ⟨.var x, .var (.named "y"), .var (.named "d")⟩
  let s : State := ⟨[(z, .int 5)], [(x, .interval 1 2)], [c], .midi⟩
  have hrun : (empty .midi).postAll [apart, within, bound] = .ok s := by
    have hopen : ∀ σ : Substitution, (∀ t ∈ c.terms, (σ.walk t).isVar = true) →
        ∀ domains, propagate ⟨σ, domains, [c], .midi⟩ = .ok ⟨σ, domains, [c], .midi⟩ :=
      fun σ hσ domains => propagate_of_open (List.forall_mem_singleton.mpr hσ)
    refine bind_eq_ok.mpr ⟨⟨[], [], [c], .midi⟩, hopen [] (by decide) [], ?_⟩
    refine bind_eq_ok.mpr ⟨⟨[], [(x, .interval 1 2)], [c], .midi⟩, hopen [] (by decide) _, ?_⟩
    exact bind_eq_ok.mpr ⟨s, hopen [(z, .int 5)] (by decide) _, rfl⟩
  have hseparate : ∀ c ∈ [apart, within, bound], c.Separate := by
    refine List.forall_mem_cons.mpr ⟨⟨trivial, trivial, trivial⟩, ?_⟩
    refine List.forall_mem_cons.mpr ⟨?_, List.forall_mem_singleton.mpr ?_⟩
    · exact ⟨⟨trivial, Domain.integral_interval 1 2, fun _ _ => trivial⟩, id⟩
    · exact ⟨⟨trivial, Term.over_int trivial⟩, .inr rfl⟩
  have hperm : [apart, within, bound].Perm [bound, within, apart] :=
    (List.reverse_perm [bound, within, apart])
  have hwritable : ∀ n, (empty .midi).ArisesAlong [apart, within, bound] n ∨
      (empty .midi).ArisesAlong [bound, within, apart] n → Number.isWritable n = true := by
    let I : Int → Prop := fun n => n.natAbs ≤ 5
    let xs : List Var := [x, .named "y", .named "d", z]
    have hx : x ∈ xs := by simp [xs]
    have hy : .named "y" ∈ xs := by simp [xs]
    have hd : .named "d" ∈ xs := by simp [xs]
    have hz : z ∈ xs := by simp [xs]
    have hdomain : ∀ n : Int, n ∈ Domain.interval 1 2 → I n := by
      intro n hn
      have := Domain.mem_interval.mp hn
      show n.natAbs ≤ 5
      omega
    have hamong : ∀ c ∈ [apart, within, bound], c.Among I (· ∈ xs) := by
      refine List.forall_mem_cons.mpr ⟨⟨hx, hy, hd⟩, ?_⟩
      refine List.forall_mem_cons.mpr ⟨?_, List.forall_mem_singleton.mpr ?_⟩
      · exact ⟨hx, ⟨Domain.integral_interval 1 2, hdomain⟩, id⟩
      · exact ⟨hz, 5, rfl, le_refl 5⟩
    intro n hn
    have hrounds : Rounds I 5 n := hn.elim ((bounded_empty I xs .midi).arisesAlong hamong)
      ((bounded_empty I xs .midi).arisesAlong fun c hc => hamong c (hperm.mem_iff.mpr hc))
    have hsmall : n.natAbs ≤ 2 ^ 5 * 5 := hrounds.natAbs_le fun _ => id
    have hdigits : n.natAbs < 10 ^ 3 := Nat.lt_of_le_of_lt hsmall (by decide)
    exact Number.isWritable_of_natAbs_lt (by decide) hdigits
  exact ⟨⟨s, hrun, rfl, rfl⟩, hwritable, postAll_perm hseparate hperm hwritable⟩

end State

end Consonance
